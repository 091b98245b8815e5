import Disasm86.Proofs.Contents
import Disasm86.Proofs.Findings
import Disasm86.Proofs.History
import Disasm86.Proofs.Procedures
import Mathlib.Data.List.Induction

/-!
# Which Procedures Are Detected

Detection goes through the references once. A reference that leads to the start of a block, and
is a call or names an entry point, makes a procedure there unless there is one. The procedure
is told in full by its entry: its blocks are those that control reaches, and it returns in the
ways that its instructions say. So what a reference calls for does not depend on the references
before it, and `called?` gives it without looking at the table.

That is what makes the warnings easy to count. Whether a call is warned about is a matter of the
call alone, and only the warning about the procedure itself depends on whether the procedure is
new. `Tallied` says what has been made and warned about after some of the references, and each
further reference adds its share.

## Main definitions

* `ProcedureTable.rootTargets`: The addresses that procedures are called for at.
* `ProcedureTable.isMismatched`: A call to a procedure that returns in other ways.
* `Procedure.Executes`: A block of the procedure has an instruction with an operation.
* `ProcedureTable.Detected`: The outcome of a detection is the right one.
* `Diagnostics.Warns`: Warnings about calls have been added at these addresses.
* `ProcedureTable.called?`: The procedure that a reference calls for.
* `ProcedureTable.Tallied`: What has been detected after some of the references.

## Theorems

* `Returns.foldl_addOperation`, `returnsOf_iff`: The ways in which instructions return.
* `ProcedureTable.Derived.addReference_eq`: What one reference does to table and diagnostics.
* `ProcedureTable.Tallied.add`, `ProcedureTable.tallied_foldl`: The references one by one.
* `ProcedureTable.detect_exact`: Detection finds the procedures and warns about the right calls.
-/

namespace Disasm86

/-- An instruction that starts inside one of the procedure's blocks has the operation. -/
def Procedure.Executes (p : Procedure) (blocks : BlockStore) (code : CodeIndex)
    (operation : Operation) : Prop :=
  ∃ id b a i, p.blocks.contains id ∧ blocks.get? id = some b ∧ code.get? a = some i
    ∧ b.contains a ∧ i.operation = operation

/-- Whether a call leads to a procedure that returns, and not in the way that the call asks
    for. -/
def Procedure.disappoints (p : Procedure) (r : Reference) : Bool :=
  r.kind.isCall && p.returns.count ≠ 0 && !p.returns.answers r.kind

namespace Diagnostics

/-- Warnings about calls have been added, one at each of the addresses. Their order is left open,
    since procedures and calls are warned about in turn. -/
def Warns (ds ds' : Diagnostics) (locations : List Address) : Prop :=
  ∃ new, ds'.toList = ds.toList ++ new ∧ (∀ d ∈ new, d.code = .inconsistentCall)
    ∧ (new.map (·.location)).Perm locations

variable {ds ds' ds'' : Diagnostics} {xs ys : List Address}

theorem Warns.refl (ds : Diagnostics) : Warns ds ds [] :=
  ⟨[], by simp, by simp, List.Perm.refl _⟩

/-- One part of the work after the other. Where a warning comes from does not matter any more, so
    the addresses are joined. -/
theorem Warns.trans (h : Warns ds ds' xs) (h' : Warns ds' ds'' ys) : Warns ds ds'' (xs ++ ys) := by
  rcases h with ⟨new, hnew, hcode, hperm⟩
  rcases h' with ⟨new', hnew', hcode', hperm'⟩
  refine ⟨new ++ new', by rw [hnew', hnew, List.append_assoc], fun d hd => ?_, ?_⟩
  · rcases List.mem_append.mp hd with hd | hd
    · exact hcode d hd
    · exact hcode' d hd
  · rw [List.map_append]
    exact hperm.append hperm'

theorem Warns.perm (h : Warns ds ds' xs) (hperm : xs.Perm ys) : Warns ds ds' ys := by
  rcases h with ⟨new, hnew, hcode, hxs⟩
  exact ⟨new, hnew, hcode, hxs.trans hperm⟩

theorem warns_report (ds : Diagnostics) (a : Address) (message : String) :
    Warns ds (ds.report a .inconsistentCall message) [a] :=
  ⟨_, ds.toList_report a .inconsistentCall message, by simp, List.Perm.refl _⟩

end Diagnostics

section Returns

/-- An operation adds the way in which it returns, if it returns at all. -/
theorem Returns.addOperation_eq (r : Returns) (operation : Operation) :
    r.addOperation operation = ⟨r.near || operation = .ret, r.far || operation = .retFar,
      r.interrupt || operation = .interruptReturn⟩ := by
  unfold addOperation
  split <;> simp_all

/-- Instructions return in the ways in which one of them does. -/
theorem Returns.foldl_addOperation (xs : List (Address × Instruction)) (r : Returns) :
    xs.foldl (fun r (_, i) => r.addOperation i.operation) r
      = ⟨r.near || xs.any (·.2.operation = .ret), r.far || xs.any (·.2.operation = .retFar),
        r.interrupt || xs.any (·.2.operation = .interruptReturn)⟩ := by
  induction xs generalizing r with
  | nil => simp
  | cons x xs ih =>
      rcases x with ⟨a, i⟩
      rw [List.foldl_cons, ih]
      simp only [addOperation_eq, List.any_cons, Bool.or_assoc]

variable {blocks : BlockStore} {code : CodeIndex}

/-- The ways in which the instructions of some blocks return, all blocks taken together. -/
theorem returnsOf_eq (members : List Nat) (blocks : BlockStore) (code : CodeIndex) :
    returnsOf members blocks code = ((members.filterMap blocks.get?).flatMap fun b =>
      code.inRange b.start b.stop).foldl (fun r (_, i) => r.addOperation i.operation) {} := by
  rw [List.foldl_flatMap]
  rfl

/-- A procedure returns in the ways in which an instruction of its blocks does. -/
theorem returnsOf_iff (wf : blocks.WellFormed) (p : Procedure)
    (hp : p.returns = returnsOf p.blocks.toList blocks code) :
    (p.returns.near ↔ p.Executes blocks code .ret)
      ∧ (p.returns.far ↔ p.Executes blocks code .retFar)
      ∧ (p.returns.interrupt ↔ p.Executes blocks code .interruptReturn) := by
  -- What is added up over the instructions of all blocks is found if one of them has it.
  have hany : ∀ operation, ((p.blocks.toList.filterMap blocks.get?).flatMap fun b =>
      code.inRange b.start b.stop).any (·.2.operation = operation) = true
        ↔ p.Executes blocks code operation := by
    intro operation
    simp only [List.any_eq_true, List.mem_flatMap, List.mem_filterMap, decide_eq_true_eq,
      Std.TreeSet.mem_toList]
    constructor
    · rintro ⟨⟨a, i⟩, ⟨b, ⟨id, hid, hget⟩, hin⟩, hop⟩
      rcases (wf.mem_inRange_iff hget).mp hin with ⟨hi, hcontains⟩
      exact ⟨id, b, a, i, Std.TreeSet.contains_iff_mem.mpr hid, hget, hi, hcontains, hop⟩
    · rintro ⟨id, b, a, i, hid, hget, hi, hcontains, hop⟩
      exact ⟨(a, i), ⟨b, ⟨id, Std.TreeSet.contains_iff_mem.mp hid, hget⟩,
        (wf.mem_inRange_iff hget).mpr ⟨hi, hcontains⟩⟩, hop⟩
  rw [hp, returnsOf_eq, Returns.foldl_addOperation]
  simp only [Bool.false_or]
  exact ⟨hany .ret, hany .retFar, hany .interruptReturn⟩

end Returns

namespace ProcedureTable

open Diagnostics

/-- The addresses at which references call for procedures, in the order of the references: the
    targets of calls and of named entry points, where a block starts. -/
def rootTargets (blocks : BlockStore) (refs : List Reference) : List Address :=
  (refs.filter fun r => isRoot r && blocks.blocks.any (·.start = r.target)).map (·.target)

/-- Whether a reference is a call that the procedure at its target disappoints. -/
def isMismatched (t : ProcedureTable) (r : Reference) : Bool :=
  t.procedures.any fun p => p.entry = r.target && p.disappoints r

/-- The outcome of a detection is the right one. The entries are in the order in which they are
    called for first, the blocks of a procedure are what its first block leads to, and the warnings
    are counted, so none is missing and none comes twice. -/
structure Detected (blocks : BlockStore) (log : ReferenceLog) (code : CodeIndex) (g : FlowGraph)
    (ds : Diagnostics) (t : ProcedureTable) (ds' : Diagnostics) : Prop where
  /-- There is one procedure at each address that is called for, in the order of the first
      reference that does so. -/
  entries : t.procedures.toList.map (·.entry) = (rootTargets blocks log.toList).eraseDups
  indexed : ∀ a n, t.at? a = some n ↔ ∃ p, t.get? n = some p ∧ p.entry = a
  entryBlock : ∀ p ∈ t.procedures, ∃ b, blocks.get? p.entryBlock = some b ∧ b.start = p.entry
  /-- Its blocks are those that edges lead to. -/
  reached : ∀ p ∈ t.procedures, ∀ id,
    p.blocks.contains id ↔ Relation.ReflTransGen g.Leads p.entryBlock id
  returns : ∀ p ∈ t.procedures, (p.returns.near ↔ p.Executes blocks code .ret)
    ∧ (p.returns.far ↔ p.Executes blocks code .retFar)
    ∧ (p.returns.interrupt ↔ p.Executes blocks code .interruptReturn)
  /-- The new warnings are about procedures that do not return in one way, each at its entry,
      and about mismatched calls, each at its source. -/
  warned : Warns ds ds' ((t.procedures.toList.filter fun p => p.returns.count ≠ 1).map (·.entry)
    ++ (log.toList.filter t.isMismatched).map (·.source))

section Detection

variable (blocks : BlockStore) (code : CodeIndex) (g : FlowGraph)

/-- The procedure that a reference calls for. -/
def called? (r : Reference) : Option Procedure :=
  if isRoot r then (blocks.startingAt? r.target).map (procedureAt blocks code g r.target) else none

variable {blocks code g} {t : ProcedureTable} {ds ds' : Diagnostics} {r : Reference}
  {p : Procedure} {refs : List Reference}

/-- A procedure is warned about if it does not return in exactly one way. -/
theorem checkReturns_warns (p : Procedure) (ds : Diagnostics) :
    Warns ds (checkReturns p ds) (if p.returns.count ≠ 1 then [p.entry] else []) := by
  unfold checkReturns
  split
  · rename_i h
    rw [h, if_pos (by decide)]
    exact warns_report _ _ _
  · rename_i h
    rw [h, if_neg (by decide)]
    exact Warns.refl _
  · rename_i h
    rw [if_pos h]
    exact warns_report _ _ _

/-- A call is warned about if the procedure disappoints it. -/
theorem checkCall_warns (r : Reference) (p : Procedure) (ds : Diagnostics) :
    Warns ds (if r.kind.isCall then checkCall r p ds else ds)
      (if p.disappoints r then [r.source] else []) := by
  unfold checkCall Procedure.disappoints
  by_cases hcall : r.kind.isCall
  · by_cases hmismatch : p.returns.count ≠ 0 ∧ !p.returns.answers r.kind
    · rw [if_pos hcall, if_pos hmismatch, if_pos (by simpa [hcall] using hmismatch)]
      exact warns_report _ _ _
    · rw [if_pos hcall, if_neg hmismatch, if_neg (by simpa [hcall] using hmismatch)]
      exact Warns.refl _
  · rw [if_neg hcall, if_neg (by simp [hcall])]
    exact Warns.refl _

/-- What one reference does: it makes the procedure that it calls for, unless there is one, and
    checks the call. -/
theorem Derived.addReference_eq (h : Derived blocks code g t) (ds : Diagnostics) (r : Reference) :
    addReference blocks code g (t, ds) r = match called? blocks code g r with
      | none => (t, ds)
      | some p =>
        if (t.at? r.target).isSome then (t, if r.kind.isCall then checkCall r p ds else ds)
        else (t.push p,
          if r.kind.isCall then checkCall r p (checkReturns p ds) else checkReturns p ds) := by
  unfold addReference findOrCreate called?
  by_cases hroot : isRoot r
  · simp only [if_pos hroot]
    cases hat : t.at? r.target with
    | some n =>
        -- The procedure that is there is the one that the reference calls for.
        rcases h.at?_iff.mp hat with ⟨p, hget, hentry⟩
        rcases h.made hget with ⟨entryBlock, hstart, hp⟩
        rw [hentry] at hstart hp
        simp only [hget, hstart, Option.map_some, Option.isSome_some, if_true, ← hp]
        split <;> rfl
    | none =>
        cases hstart : blocks.startingAt? r.target with
        | none => rfl
        | some entryBlock =>
            simp only [Option.map_some, Option.isSome_none, Bool.false_eq_true, if_false]
            split <;> rfl
  · simp only [if_neg hroot]

variable (blocks code g) in
/-- After some references have been gone through, there is a procedure at each address that they
    call for, and the warnings are those of the procedures and of the calls so far. It is the
    invariant of the loop over the references. -/
structure Tallied (ds : Diagnostics) (refs : List Reference) (t : ProcedureTable)
    (ds' : Diagnostics) : Prop where
  derived : Derived blocks code g t
  entries : t.procedures.toList.map (·.entry) = (rootTargets blocks refs).eraseDups
  warned : Warns ds ds' ((t.procedures.toList.filter fun p => p.returns.count ≠ 1).map (·.entry)
    ++ (refs.filter fun r => (called? blocks code g r).any (·.disappoints r)).map (·.source))

/-- A reference calls for a procedure if it is one of the right sort and a block starts at its
    target. -/
theorem isSome_called? (wf : blocks.WellFormed) :
    (called? blocks code g r).isSome = (isRoot r && blocks.blocks.any (·.start = r.target)) := by
  have hstart : (blocks.startingAt? r.target).isSome = blocks.blocks.any (·.start = r.target) := by
    rw [Bool.eq_iff_iff, Option.isSome_iff_exists, Array.any_eq_true']
    simp only [wf.startingAt?_iff, decide_eq_true_eq, Array.mem_iff_getElem?, BlockStore.get?]
    constructor
    · rintro ⟨id, b, hget, hb⟩
      exact ⟨b, ⟨id, hget⟩, hb⟩
    · rintro ⟨b, ⟨id, hget⟩, hb⟩
      exact ⟨id, b, hget, hb⟩
  unfold called?
  by_cases hroot : isRoot r
  · rw [if_pos hroot, Option.isSome_map, hstart, hroot, Bool.true_and]
  · simp [hroot]

/-- The addresses that have a procedure are the entries of the table. -/
theorem Derived.isSome_at?_iff (h : Derived blocks code g t) {a : Address} :
    (t.at? a).isSome ↔ a ∈ t.procedures.toList.map (·.entry) := by
  rw [Option.isSome_iff_exists]
  simp only [h.at?_iff, List.mem_map, Array.mem_toList_iff, Array.mem_iff_getElem?, get?]
  constructor
  · rintro ⟨n, p, hget, hp⟩
    exact ⟨p, ⟨n, hget⟩, hp⟩
  · rintro ⟨p, ⟨n, hget⟩, hp⟩
    exact ⟨n, p, hget, hp⟩

theorem entry_of_called? (h : called? blocks code g r = some p) : p.entry = r.target := by
  unfold called? at h
  split at h
  · rcases Option.map_eq_some_iff.mp h with ⟨entryBlock, -, rfl⟩
    rfl
  · cases h

/-- One more address is new, or it makes no difference. -/
theorem eraseDups_concat (xs : List Address) (a : Address) :
    (xs ++ [a]).eraseDups = if a ∈ xs then xs.eraseDups else xs.eraseDups ++ [a] := by
  rw [List.eraseDups_append]
  by_cases ha : a ∈ xs
  · simp [ha, List.removeAll]
  · simp [ha, List.removeAll, List.eraseDups_cons]

theorem map_filter_concat {α β : Type} (f : α → β) (p : α → Bool) (xs : List α) (x : α) :
    ((xs ++ [x]).filter p).map f = (xs.filter p).map f ++ if p x then [f x] else [] := by
  cases h : p x <;> simp [h]

/-- A further reference adds its share. -/
theorem Tallied.add (wf : blocks.WellFormed) (h : Tallied blocks code g ds refs t ds')
    (r : Reference) : Tallied blocks code g ds (refs ++ [r])
      (addReference blocks code g (t, ds') r).1 (addReference blocks code g (t, ds') r).2 := by
  have hderived : Derived blocks code g (addReference blocks code g (t, ds') r).1 := by
    rw [addReference_table]
    exact (h.derived.enter r).1
  have hroots : rootTargets blocks (refs ++ [r]) = rootTargets blocks refs
      ++ if (called? blocks code g r).isSome then [r.target] else [] := by
    rw [isSome_called? wf]
    exact map_filter_concat _ _ refs r
  -- For the entries and for the warnings the same cases are gone through: no procedure, one that is
  -- there, and a new one.
  refine ⟨hderived, ?_, ?_⟩
  · rw [hroots, h.derived.addReference_eq]
    cases hcalled : called? blocks code g r with
    | none => simp [h.entries]
    | some p =>
        simp only [Option.isSome_some, if_true, eraseDups_concat]
        -- An address that has a procedure has been called for before.
        by_cases hold : (t.at? r.target).isSome
        · have hmem := h.derived.isSome_at?_iff.mp hold
          rw [h.entries, List.mem_eraseDups] at hmem
          rw [if_pos hold, if_pos hmem, h.entries]
        · have hmem := mt h.derived.isSome_at?_iff.mpr hold
          rw [h.entries, List.mem_eraseDups] at hmem
          rw [if_neg hold, if_neg hmem]
          simp [push, h.entries, entry_of_called? hcalled]
  · rw [map_filter_concat, h.derived.addReference_eq]
    cases hcalled : called? blocks code g r with
    | none => simpa using h.warned
    | some p =>
        simp only [Option.any_some]
        by_cases hold : (t.at? r.target).isSome
        · rw [if_pos hold, ← List.append_assoc]
          exact h.warned.trans (checkCall_warns r p ds')
        · -- The warning about the new procedure comes before the one about the call.
          rw [if_neg hold]
          have hboth := (h.warned.trans (checkReturns_warns p ds')).trans
            (checkCall_warns r p (checkReturns p ds'))
          have hprocedures : (t.push p).procedures.toList = t.procedures.toList ++ [p] := by
            simp [push]
          rw [hprocedures, map_filter_concat]
          refine hboth.perm (List.perm_iff_count.mpr fun a => ?_)
          simp only [List.count_append, decide_eq_true_eq]
          omega

/-- Going through references from no procedure on. -/
theorem tallied_foldl (wf : blocks.WellFormed) (ds : Diagnostics) (refs : List Reference) :
    Tallied blocks code g ds refs (refs.foldl (addReference blocks code g) (empty, ds)).1
      (refs.foldl (addReference blocks code g) (empty, ds)).2 := by
  -- The last reference is taken off, since the tally of the others is what it adds to.
  induction refs using List.reverseRecOn with
  | nil => exact ⟨derived_empty, rfl, Warns.refl ds⟩
  | append_singleton refs r ih =>
      rw [List.foldl_append]
      exact ih.add wf r

/-- The procedure at the target of a reference is the one that the reference calls for. -/
theorem Derived.eq_of_called? (h : Derived blocks code g t) {q : Procedure}
    (hq : q ∈ t.procedures) (hentry : q.entry = r.target)
    (hp : called? blocks code g r = some p) : q = p := by
  rcases Array.mem_iff_getElem?.mp hq with ⟨n, hget⟩
  rcases h.made hget with ⟨entryBlock, hstart, hmade⟩
  rw [hentry] at hstart hmade
  unfold called? at hp
  split at hp
  · rw [hstart, Option.map_some, Option.some.injEq] at hp
    rw [hmade, hp]
  · cases hp

theorem mem_rootTargets_iff {a : Address} : a ∈ rootTargets blocks refs ↔
    ∃ r ∈ refs, isRoot r ∧ blocks.blocks.any (·.start = r.target) ∧ r.target = a := by
  unfold rootTargets
  simp only [List.mem_map, List.mem_filter, Bool.and_eq_true, and_assoc]

/-- When all references have been gone through, the calls that have been warned about are those
    that the procedure at their target disappoints. -/
theorem Tallied.isMismatched_eq (wf : blocks.WellFormed) (h : Tallied blocks code g ds refs t ds')
    (hr : r ∈ refs) :
    (called? blocks code g r).any (·.disappoints r) = t.isMismatched r := by
  have hentries : ∀ {a}, (∃ q ∈ t.procedures, q.entry = a) ↔ a ∈ rootTargets blocks refs := by
    intro a
    rw [← List.mem_eraseDups, ← h.entries]
    simp only [List.mem_map, Array.mem_toList_iff]
  rw [Bool.eq_iff_iff, Option.any_eq_true, isMismatched, Array.any_eq_true']
  simp only [Bool.and_eq_true, decide_eq_true_eq]
  constructor
  · rintro ⟨p, hp, hdisappoints⟩
    -- The reference has called for the procedure, so there is one.
    have hsome : (called? blocks code g r).isSome := by rw [hp]; rfl
    rw [isSome_called? wf, Bool.and_eq_true] at hsome
    rcases hentries.mpr (mem_rootTargets_iff.mpr ⟨r, hr, hsome.1, hsome.2, rfl⟩)
      with ⟨q, hq, hentry⟩
    refine ⟨q, hq, hentry, ?_⟩
    rw [h.derived.eq_of_called? hq hentry hp]
    exact hdisappoints
  · rintro ⟨q, hq, hentry, hdisappoints⟩
    -- Another reference has called for the procedure. It has the same target, so this one,
    -- being a call, calls for it as well.
    rcases mem_rootTargets_iff.mp (hentries.mp ⟨q, hq, hentry⟩) with ⟨r', -, hroot, hstarts, heq⟩
    have hcall : r.kind.isCall := by
      simp only [Procedure.disappoints, Bool.and_eq_true] at hdisappoints
      exact hdisappoints.1.1
    have hsome : (called? blocks code g r).isSome := by
      rw [isSome_called? wf, ← heq, hstarts, Bool.and_true]
      simp only [isRoot, Bool.and_eq_true] at hroot ⊢
      rw [hcall, ← heq]
      exact ⟨rfl, hroot.2⟩
    rcases Option.isSome_iff_exists.mp hsome with ⟨p, hp⟩
    refine ⟨p, hp, ?_⟩
    rw [← h.derived.eq_of_called? hq hentry hp]
    exact hdisappoints

end Detection

/-- Detection finds the procedures and warns about the right ones and the right calls, for the
    blocks that any history leaves and the graph of these blocks. A call is checked when it is met,
    and the procedure at its target is not changed any more after that. -/
theorem detect_exact (updates : List BlockStore.Update)
    (hend : ∀ b, .add b ∈ updates → b.start.offset.toInt + b.length.toInt < 0x80000000)
    (log : ReferenceLog) (code : CodeIndex) (raised ds : Diagnostics) :
    let blocks := BlockStore.ofHistory updates
    let g := (FlowGraph.build blocks log raised).1
    Detected blocks log code g ds (detect blocks log code g ds).1
      (detect blocks log code g ds).2 := by
  intro blocks g
  have wf : blocks.WellFormed := BlockStore.wellFormed_ofHistory hend
  have htallied : Tallied blocks code g ds log.toList (detect blocks log code g ds).1
    (detect blocks log code g ds).2 := tallied_foldl wf ds log.toList
  -- Every procedure was made at its entry, so all of it is known from there.
  have hmade : ∀ p ∈ (detect blocks log code g ds).1.procedures, ∃ b,
      blocks.get? p.entryBlock = some b ∧ b.start = p.entry
        ∧ p = procedureAt blocks code g p.entry p.entryBlock := by
    intro p hp
    rcases Array.mem_iff_getElem?.mp hp with ⟨n, hget⟩
    rcases htallied.derived.made hget with ⟨entryBlock, hstart, hmade⟩
    have hblock : p.entryBlock = entryBlock := by rw [hmade]; rfl
    rw [← hblock] at hstart hmade
    rcases wf.startingAt?_iff.mp hstart with ⟨b, hb, hbstart⟩
    exact ⟨b, hb, hbstart, hmade⟩
  refine ⟨htallied.entries, fun a n => htallied.derived.at?_iff, fun p hp => ?_, fun p hp id => ?_,
    fun p hp => ?_, ?_⟩
  · rcases hmade p hp with ⟨b, hb, hstart, -⟩
    exact ⟨b, hb, hstart⟩
  · rcases hmade p hp with ⟨b, hb, -, hp⟩
    have hblocks : p.blocks = reachableFrom g blocks.size p.entryBlock := by rw [hp]; rfl
    rw [hblocks, Std.TreeSet.contains_iff_mem]
    exact mem_reachableFrom_build_iff wf (BlockStore.lt_size_of_get? hb)
  · rcases hmade p hp with ⟨b, -, -, hp⟩
    exact returnsOf_iff wf p (by rw [hp]; rfl)
  · have hcalls := List.filter_congr fun r hr => htallied.isMismatched_eq wf (r := r) hr
    rw [← hcalls]
    exact htallied.warned

/-- A block that calls and runs on into a jump, and a block behind a gap that returns. -/
def farCaller : List BlockStore.Update :=
  [.add ⟨⟨0, 0⟩, 4, .call⟩, .add ⟨⟨0, 4⟩, 2, .jump⟩, .add ⟨⟨0, 8⟩, 1, .ret⟩]

/-- The first block is entered and calls the last, which returns, but only to near calls. -/
def farCall : ReferenceLog :=
  ((ReferenceLog.empty.push ⟨.entry, .nowhere, ⟨0, 0⟩, .nowhere⟩).push
    ⟨.transfer .farCall, ⟨0, 2⟩, ⟨0, 8⟩, .nowhere⟩).push
      ⟨.fallThrough, ⟨0, 2⟩, ⟨0, 4⟩, .nowhere⟩

/-- The instruction of the block that returns. -/
def nearReturn : CodeIndex := CodeIndex.empty.insert ⟨0, 8⟩ ⟨.ret, {}, [], [0xC3]⟩

/-- There is one instruction in the index, and it returns. -/
theorem of_get?_nearReturn {a : Address} {i : Instruction} (h : nearReturn.get? a = some i) :
    a = ⟨0, 8⟩ ∧ i.operation = .ret := by
  simp only [nearReturn, CodeIndex.get?, CodeIndex.insert, CodeIndex.empty] at h
  rw [Std.TreeMap.getElem?_insert] at h
  split at h
  · rename_i heq
    cases h
    exact ⟨(Std.LawfulEqCmp.eq_of_compare heq).symm, rfl⟩
  · simp at h

/-- The block that has the return starts with it, and no edge leads there. -/
theorem of_contains_farCaller {id : Nat} {b : Block}
    (hget : (BlockStore.ofHistory farCaller).get? id = some b) (hin : b.contains ⟨0, 8⟩) :
    b.start = ⟨0, 8⟩ ∧ ∀ c,
      ¬ (FlowGraph.build (BlockStore.ofHistory farCaller) farCall .empty).1.Leads c id := by
  have hblocks : (BlockStore.ofHistory farCaller).blocks
      = #[⟨⟨0, 0⟩, 4, .call⟩, ⟨⟨0, 4⟩, 2, .jump⟩, ⟨⟨0, 8⟩, 1, .ret⟩] := by decide +kernel
  -- There are three blocks, and the last one is the only one around the return.
  have hid : id = 2 ∧ b = ⟨⟨0, 8⟩, 1, .ret⟩ := by
    rw [BlockStore.get?, hblocks] at hget
    rcases id with _ | _ | _ | id
    · cases hget
      exact absurd hin (by decide)
    · cases hget
      exact absurd hin (by decide)
    · cases hget
      exact ⟨rfl, rfl⟩
    · simp at hget
  rw [hid.1, hid.2]
  refine ⟨rfl, fun c hlead => ?_⟩
  rcases FlowGraph.leads_build_iff.mp hlead with ⟨r, hr, hflow, -, htarget⟩
  have hjump : ∀ r ∈ farCall.toList, FlowGraph.isFlow r →
      (BlockStore.ofHistory farCaller).find? r.target ≠ some 2 := by decide +kernel
  exact hjump r hr hflow htarget

section FarCall

variable {t : ProcedureTable} {ds : Diagnostics} {p : Procedure}
  (h : Detected (BlockStore.ofHistory farCaller) farCall nearReturn
    (FlowGraph.build (BlockStore.ofHistory farCaller) farCall .empty).1 .empty t ds)
  (hp : p ∈ t.procedures)

include h hp

/-- The procedure at the return executes it, and the other one executes nothing that returns. -/
theorem executes_farCall_iff (operation : Operation) :
    p.Executes (BlockStore.ofHistory farCaller) nearReturn operation
      ↔ operation = .ret ∧ p.entry = ⟨0, 8⟩ := by
  rcases h.entryBlock p hp with ⟨first, hfirst, hentry⟩
  constructor
  · rintro ⟨id, b, a, i, hid, hget, hi, hin, hop⟩
    rcases of_get?_nearReturn hi with ⟨rfl, hret⟩
    rcases of_contains_farCaller hget hin with ⟨hstart, hnone⟩
    refine ⟨hop.symm.trans hret, ?_⟩
    -- A path to the block with the return would have a last edge, unless it starts there.
    rcases Relation.ReflTransGen.cases_tail ((h.reached p hp id).mp hid) with rfl | ⟨c, -, hlast⟩
    · rw [hfirst] at hget
      cases hget
      exact hentry.symm.trans hstart
    · exact absurd hlast (hnone c)
  · rintro ⟨rfl, heq⟩
    have hend : ∀ b, .add b ∈ farCaller → b.start.offset.toInt + b.length.toInt < 0x80000000 := by
      simp [farCaller]
    have hin := Block.contains_start ((BlockStore.wellFormed_ofHistory hend).positive hfirst)
    rw [hentry, heq] at hin
    exact ⟨p.entryBlock, first, ⟨0, 8⟩, ⟨.ret, {}, [], [0xC3]⟩, (h.reached p hp _).mpr .refl,
      hfirst, by decide +kernel, hin, rfl⟩

/-- So the procedure at the return is the only one that returns, and it does so to near calls. -/
theorem returns_farCall : p.returns = ⟨p.entry = ⟨0, 8⟩, false, false⟩ := by
  rcases h.returns p hp with ⟨hnear, hfar, hinterrupt⟩
  rw [executes_farCall_iff h hp] at hnear hfar hinterrupt
  rcases hr : p.returns with ⟨near, far, interrupt⟩
  rw [hr] at hnear hfar hinterrupt
  simp only [reduceCtorEq, false_and, true_and, iff_false, Bool.not_eq_true]
    at hnear hfar hinterrupt
  rw [hfar, hinterrupt, Bool.eq_iff_iff.mpr (hnear.trans decide_eq_true_iff.symm)]

end FarCall

-- The search for blocks does not evaluate in the kernel, so what is warned about is read off the
-- statement of the theorem, by the ways in which the two procedures return.
/-- The procedure that is entered has no return, and there is a warning about that. The one that
    is called has a return, but not the one that a far call asks for, and so there is another
    warning, at the call. -/
theorem detect_exact_farCall :
    let blocks := BlockStore.ofHistory farCaller
    let g := (FlowGraph.build blocks farCall .empty).1
    let out := detect blocks farCall nearReturn g .empty
    (∀ b, .add b ∈ farCaller → b.start.offset.toInt + b.length.toInt < 0x80000000)
      ∧ out.1.procedures.toList.map (·.entry) = [⟨0, 0⟩, ⟨0, 8⟩]
      ∧ Warns .empty out.2 [⟨0, 0⟩, ⟨0, 2⟩]
      ∧ Detected blocks farCall nearReturn g .empty out.1 out.2 := by
  intro blocks g out
  have hend : ∀ b, .add b ∈ farCaller → b.start.offset.toInt + b.length.toInt < 0x80000000 := by
    simp [farCaller]
  have hdetected : Detected blocks farCall nearReturn g .empty out.1 out.2 :=
    detect_exact farCaller hend farCall nearReturn .empty .empty
  have hentries : out.1.procedures.toList.map (·.entry) = [⟨0, 0⟩, ⟨0, 8⟩] := by
    rw [hdetected.entries]
    decide +kernel
  refine ⟨hend, hentries, ?_, hdetected⟩
  rcases List.map_eq_cons_iff.mp hentries with ⟨p, rest, hboth, hp, hrest⟩
  rcases List.map_eq_singleton_iff.mp hrest with ⟨q, rfl, hq⟩
  have hpreturns := returns_farCall hdetected (p := p) (by rw [← Array.mem_toList_iff, hboth]; simp)
  have hqreturns := returns_farCall hdetected (p := q) (by rw [← Array.mem_toList_iff, hboth]; simp)
  rw [hp] at hpreturns
  rw [hq] at hqreturns
  -- Of the two procedures the one that is entered returns in no way, and the other in one.
  have hatEntry : (out.1.procedures.toList.filter fun p => p.returns.count ≠ 1) = [p] := by
    rw [hboth]
    simp [hpreturns, hqreturns, Returns.count]
  have hatCall : (farCall.toList.filter out.1.isMismatched).map (·.source) = [⟨0, 2⟩] := by
    have hany : out.1.isMismatched
        = fun r => [p, q].any fun p => p.entry = r.target && p.disappoints r := by
      funext r
      rw [isMismatched, ← Array.any_toList, hboth]
    rw [hany]
    simp only [List.any_cons, List.any_nil, Procedure.disappoints, hp, hq, hpreturns, hqreturns]
    decide +kernel
  have hwarned := hdetected.warned
  rw [hatEntry, hatCall, List.map_singleton, hp] at hwarned
  exact hwarned

end ProcedureTable

end Disasm86
