import Disasm86.Proofs.Pending

/-!
# The Order of the Queue

In which order references leave the queue. They leave by rank, and those of one rank as
they came. Told by the list of pending references, queueing one more parts the list in two:
what stands before it is of no greater rank, and what stands behind it is of a greater one.

The lanes bring this about. They stand by ascending rank, and a lane holds references of
its own rank only. Nothing checks that; a queue that starts empty and is changed by pushing
and popping alone has it, and all queues of an exploration are of that sort.

Since references of one rank are never overtaken by each other, a part of the queue that
has only one rank is itself a queue: what is pushed goes to its end, and what is popped was
its first.

## Main definitions

* `ReferenceQueue.Ranked`: Lanes ascend, and hold references of their rank.

## Theorems

* `Ranked.push`, `Ranked.pop?`: Queues stay ranked.
* `Ranked.exists_pending_push`: Where a reference goes that is pushed.
* `Ranked.filter_push`: Among those of its rank, a reference goes to the end.
-/

namespace Disasm86

namespace ReferenceQueue

/-- The lanes stand by ascending rank, and a lane holds references of its rank only. A queue is
    built by pushing, which looks for the lane of the rank and opens it where it belongs if there is
    none. -/
structure Ranked (q : ReferenceQueue) : Prop where
  ascending : q.lanes.Pairwise fun x y => x.1 < y.1
  uniform : ∀ x ∈ q.lanes, ∀ r ∈ x.2.toList, r.kind.rank = x.1

section Lanes

variable {r : Reference} {lanes rest : List (Nat × Lane)} {x : Nat × Lane}

theorem ranked_empty : empty.Ranked where
  ascending := List.Pairwise.nil
  uniform := fun x hx => by cases hx

/-- Ranked lanes are a first lane and others of greater rank. All inductions on the lanes go through
    this. -/
theorem ranked_cons_iff : Ranked ⟨x :: rest⟩ ↔
    (∀ y ∈ rest, x.1 < y.1) ∧ (∀ r ∈ x.2.toList, r.kind.rank = x.1) ∧ Ranked ⟨rest⟩ := by
  constructor
  · intro h
    have hascending := List.pairwise_cons.mp h.ascending
    exact ⟨hascending.1, h.uniform x List.mem_cons_self, hascending.2,
      fun y hy => h.uniform y (List.mem_cons_of_mem x hy)⟩
  · intro h
    rcases h with ⟨hfirst, huniform, hrest⟩
    refine ⟨List.pairwise_cons.mpr ⟨hfirst, hrest.ascending⟩, fun y hy => ?_⟩
    rcases List.mem_cons.mp hy with rfl | hy
    · exact huniform
    · exact hrest.uniform y hy

/-- What stands in lanes that are ranked has the rank of one of them. -/
theorem Ranked.rank_of_mem_pending (h : Ranked ⟨lanes⟩) (hr : r ∈ pending ⟨lanes⟩) :
    ∃ x ∈ lanes, r.kind.rank = x.1 := by
  rcases List.mem_flatMap.mp hr with ⟨x, hx, hmem⟩
  exact ⟨x, hx, h.uniform x hx r hmem⟩

/-- Pushing opens no lane but that of the reference. -/
theorem rank_of_mem_pushLane (hx : x ∈ pushLane r lanes) :
    x.1 = r.kind.rank ∨ ∃ y ∈ lanes, y.1 = x.1 := by
  induction lanes with
  | nil =>
      rw [List.mem_singleton.mp hx]
      exact Or.inl rfl
  | cons y rest ih =>
      rcases y with ⟨rank, lane⟩
      have hold : x ∈ (rank, lane) :: rest → ∃ y ∈ (rank, lane) :: rest, y.1 = x.1 :=
        fun hmem => ⟨x, hmem, rfl⟩
      -- The three ways to go on: past this lane, into it, or into a new one in front of it.
      unfold pushLane at hx
      split at hx
      · rcases List.mem_cons.mp hx with rfl | hx
        · exact Or.inr (hold List.mem_cons_self)
        · rcases ih hx with heq | ⟨y, hy, heq⟩
          · exact Or.inl heq
          · exact Or.inr ⟨y, List.mem_cons_of_mem _ hy, heq⟩
      · split at hx
        · rcases List.mem_cons.mp hx with rfl | hx
          · exact Or.inr ⟨(rank, lane), List.mem_cons_self, rfl⟩
          · exact Or.inr (hold (List.mem_cons_of_mem _ hx))
        · rcases List.mem_cons.mp hx with rfl | hx
          · exact Or.inl rfl
          · exact Or.inr (hold hx)

/-- Pushing keeps lanes ranked, since the search for a lane stops at the first rank that is not
    smaller. -/
theorem Ranked.pushLane (h : Ranked ⟨lanes⟩) (r : Reference) : Ranked ⟨pushLane r lanes⟩ := by
  have hnew : ∀ q ∈ (Lane.push {} r).toList, q.kind.rank = r.kind.rank := by
    intro q hq
    rw [Lane.toList_push] at hq
    rw [List.mem_singleton.mp hq]
  induction lanes with
  | nil => exact ranked_cons_iff.mpr ⟨fun y hy => (by cases hy), hnew, h⟩
  | cons y rest ih =>
      rcases y with ⟨rank, lane⟩
      rcases ranked_cons_iff.mp h with ⟨hfirst, huniform, hrest⟩
      unfold ReferenceQueue.pushLane
      by_cases hbefore : rank < r.kind.rank
      · rw [if_pos hbefore]
        refine ranked_cons_iff.mpr ⟨fun y hy => ?_, huniform, ih hrest⟩
        -- Further on there are the lanes from before and perhaps a new one, which is of greater
        -- rank too.
        rcases rank_of_mem_pushLane hy with heq | ⟨z, hz, heq⟩
        · exact Nat.lt_of_lt_of_eq hbefore heq.symm
        · exact Nat.lt_of_lt_of_eq (hfirst z hz) heq
      · rw [if_neg hbefore]
        by_cases hsame : rank = r.kind.rank
        · rw [if_pos hsame]
          refine ranked_cons_iff.mpr ⟨hfirst, fun q hq => ?_, hrest⟩
          rw [Lane.toList_push, List.mem_append, List.mem_singleton] at hq
          rcases hq with hq | rfl
          · exact huniform q hq
          · exact hsame.symm
        · rw [if_neg hsame]
          refine ranked_cons_iff.mpr ⟨fun y hy => ?_, hnew, h⟩
          -- The new lane stands first, and what follows is of greater rank.
          rcases List.mem_cons.mp hy with rfl | hy
          · simp only []
            omega
          · have := hfirst y hy
            simp only [] at this
            omega

end Lanes

variable {q q' : ReferenceQueue} {r : Reference} {p : Reference → Bool}

theorem Ranked.push (h : q.Ranked) (r : Reference) : (q.push r).Ranked := h.pushLane r

/-- Popping keeps lanes ranked. Lanes in front of the one that is popped from are dropped, as they
    are empty. -/
theorem Ranked.pop? (h : q.Ranked) (hpop : q.pop? = some (r, q')) : q'.Ranked := by
  rcases q with ⟨lanes⟩
  unfold ReferenceQueue.pop? at hpop
  induction lanes with
  | nil => cases hpop
  | cons x rest ih =>
      rcases x with ⟨rank, lane⟩
      rcases ranked_cons_iff.mp h with ⟨hfirst, huniform, hrest⟩
      unfold popLane? at hpop
      cases hlane : lane.pop? with
      | none =>
          simp only [hlane] at hpop
          exact ih hrest hpop
      | some next =>
          simp only [hlane, Option.map_some, Option.some.injEq, Prod.mk.injEq] at hpop
          rw [← hpop.2]
          refine ranked_cons_iff.mpr ⟨hfirst, fun q hq => huniform q ?_, hrest⟩
          rw [Lane.pop?_eq_some hlane]
          exact List.mem_cons_of_mem _ hq

/-- A reference that is pushed goes behind all that are of no greater rank. So references of one
    rank are served in the order in which they came. -/
theorem Ranked.exists_pending_push (h : q.Ranked) (r : Reference) :
    ∃ front back, q.pending = front ++ back ∧ (q.push r).pending = front ++ r :: back
      ∧ (∀ x ∈ front, x.kind.rank ≤ r.kind.rank) ∧ ∀ x ∈ back, r.kind.rank < x.kind.rank := by
  rcases q with ⟨lanes⟩
  unfold ReferenceQueue.push
  -- By induction on the lanes, along the search of `pushLane`.
  induction lanes with
  | nil => exact ⟨[], [], rfl, rfl, fun x hx => (by cases hx), fun x hx => (by cases hx)⟩
  | cons x rest ih =>
      rcases x with ⟨rank, lane⟩
      rcases ranked_cons_iff.mp h with ⟨hfirst, huniform, hrest⟩
      have hbehind : ∀ y ∈ pending ⟨rest⟩, rank < y.kind.rank := by
        intro y hy
        rcases hrest.rank_of_mem_pending hy with ⟨z, hz, heq⟩
        exact Nat.lt_of_lt_of_eq (hfirst z hz) heq.symm
      unfold ReferenceQueue.pushLane
      by_cases hbefore : rank < r.kind.rank
      · -- The whole lane is overtaken by nobody, and the reference goes further on.
        rw [if_pos hbefore]
        rcases ih hrest with ⟨front, back, hold, hnew, hfront, hback⟩
        refine ⟨lane.toList ++ front, back, ?_, ?_, fun y hy => ?_, hback⟩
        · rw [List.append_assoc, ← hold]
          rfl
        · rw [List.append_assoc, ← hnew]
          rfl
        · rcases List.mem_append.mp hy with hy | hy
          · rw [huniform y hy]
            exact Nat.le_of_lt hbefore
          · exact hfront y hy
      · rw [if_neg hbefore]
        by_cases hsame : rank = r.kind.rank
        · rw [if_pos hsame]
          refine ⟨lane.toList, pending ⟨rest⟩, rfl, ?_, fun y hy => ?_, ?_⟩
          · unfold pending
            rw [List.flatMap_cons, Lane.toList_push, List.append_assoc]
            rfl
          · exact Nat.le_of_eq ((huniform y hy).trans hsame)
          · rw [← hsame]
            exact hbehind
        · rw [if_neg hsame]
          -- No lane of this rank is left, so all that follows is of greater rank.
          refine ⟨[], pending ⟨(rank, lane) :: rest⟩, rfl, rfl, fun y hy => (by cases hy), ?_⟩
          intro y hy
          rcases h.rank_of_mem_pending hy with ⟨z, hz, heq⟩
          rcases List.mem_cons.mp hz with rfl | hz
          · simp only [] at heq
            omega
          · have hlt := hfirst z hz
            simp only [] at hlt
            omega

/-- In a part of the queue that has one rank only, a reference goes to the end. -/
theorem Ranked.filter_push (h : q.Ranked) {rank : Nat} (hp : ∀ x, p x → x.kind.rank = rank)
    (r : Reference) : (q.push r).pending.filter p = q.pending.filter p ++ [r].filter p := by
  rcases h.exists_pending_push r with ⟨front, back, hold, hnew, -, hback⟩
  rw [hold, hnew, List.filter_append, List.filter_append, List.filter_cons]
  by_cases hr : p r
  · -- What stands behind the reference is of another rank, so it is not in that part.
    have hnone : back.filter p = [] := by
      refine List.filter_eq_nil_iff.mpr fun x hx hpx => ?_
      have hlt := hback x hx
      have hx := hp x hpx
      have hr := hp r hr
      omega
    simp only [hr, if_true, hnone, List.append_nil, List.filter_cons_of_pos, List.filter_nil]
  · simp only [hr, if_false, List.filter_cons_of_neg, List.filter_nil, List.append_nil,
      Bool.false_eq_true, not_false_eq_true]

end ReferenceQueue

end Disasm86
