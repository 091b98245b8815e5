import Disasm86.Reference.Queue

/-!
# Pending References

The queue told by the list of its references, the next one first. How references are
spread over lanes, and how a lane is parted into its front and its back, does not show
there: popping takes the first of the list, and pushing puts one more somewhere into it.

## Theorems

* `Lane.toList_push`: A reference goes behind the others of its lane.
* `Lane.pop?_eq_some`: The next reference of a lane is its first.
* `ReferenceQueue.pending_push_perm`: Queueing adds a reference and moves none.
* `ReferenceQueue.pop?_eq_some`: The next reference is the first that is pending.
* `ReferenceQueue.pop?_eq_none`: Nothing is pending if there is no next reference.
-/

namespace Disasm86

namespace Lane

variable {l rest : Lane} {r : Reference}

/-- A reference goes behind the others of its lane, so a lane is first in, first out. -/
theorem toList_push (l : Lane) (r : Reference) : (l.push r).toList = l.toList ++ [r] := by
  simp only [push, toList, List.reverse_cons, List.append_assoc]

/-- The next reference of a lane is its first, whether or not the back has to be turned over to get
    at it. -/
theorem pop?_eq_some (h : l.pop? = some (r, rest)) : l.toList = r :: rest.toList := by
  rcases l with ⟨front, back⟩
  unfold pop? at h
  cases front with
  | cons x front =>
      cases h
      rfl
  | nil =>
      -- The front has run out, so the back is turned over.
      cases hback : back.reverse with
      | nil => simp only [hback, reduceCtorEq] at h
      | cons x front =>
          simp only [hback, Option.some.injEq, Prod.mk.injEq] at h
          rw [← h.1, ← h.2]
          simp only [toList, List.nil_append, hback, List.reverse_nil, List.append_nil]

/-- A lane that gives nothing away holds nothing: a back alone would have been turned over. -/
theorem pop?_eq_none (h : l.pop? = none) : l.toList = [] := by
  rcases l with ⟨front, back⟩
  unfold pop? at h
  cases front with
  | cons x front => cases h
  | nil =>
      cases hback : back.reverse with
      | nil => simp only [toList, List.nil_append, hback]
      | cons x front => simp only [hback, reduceCtorEq] at h

end Lane

namespace ReferenceQueue

/-- Queueing a reference adds it and moves no other. Only the order depends on its rank, and what is
    proved from here on for all pending references does not. -/
theorem pending_push_perm (q : ReferenceQueue) (r : Reference) :
    (q.push r).pending.Perm (r :: q.pending) := by
  rcases q with ⟨lanes⟩
  -- By induction on the lanes, which a push goes through until it meets the rank of the reference.
  unfold push pending
  induction lanes with
  | nil => exact List.Perm.refl _
  | cons x lanes ih =>
      rcases x with ⟨rank, lane⟩
      unfold pushLane
      by_cases hbefore : rank < r.kind.rank
      · rw [if_pos hbefore]
        exact (ih.append_left lane.toList).trans List.perm_middle
      · rw [if_neg hbefore]
        by_cases hsame : rank = r.kind.rank
        · rw [if_pos hsame, List.flatMap_cons, Lane.toList_push, List.append_assoc]
          exact List.perm_middle
        · rw [if_neg hsame]
          exact List.Perm.refl _

/-- The next reference is the first that is pending. Lanes that have run out may still be there, and
    they are passed over. -/
theorem pop?_eq_some {q rest : ReferenceQueue} {r : Reference}
    (h : q.pop? = some (r, rest)) : q.pending = r :: rest.pending := by
  rcases q with ⟨lanes⟩
  unfold pop? at h
  unfold pending
  induction lanes with
  | nil => cases h
  | cons x lanes ih =>
      rcases x with ⟨rank, lane⟩
      unfold popLane? at h
      cases hlane : lane.pop? with
      | none =>
          -- This lane is empty and adds nothing to the list either.
          simp only [hlane] at h
          rw [List.flatMap_cons, Lane.pop?_eq_none hlane, List.nil_append]
          exact ih h
      | some next =>
          simp only [hlane, Option.map_some, Option.some.injEq, Prod.mk.injEq] at h
          rw [← h.1, ← h.2, List.flatMap_cons, Lane.pop?_eq_some hlane]
          rfl

/-- If there is no next reference, none is pending, in whatever lane. -/
theorem pop?_eq_none {q : ReferenceQueue} (h : q.pop? = none) : q.pending = [] := by
  rcases q with ⟨lanes⟩
  unfold pop? at h
  unfold pending
  induction lanes with
  | nil => rfl
  | cons x lanes ih =>
      rcases x with ⟨rank, lane⟩
      unfold popLane? at h
      cases hlane : lane.pop? with
      | none =>
          simp only [hlane] at h
          rw [List.flatMap_cons, Lane.pop?_eq_none hlane, List.nil_append]
          exact ih h
      | some next => simp only [hlane, Option.map_some, reduceCtorEq] at h

end ReferenceQueue

end Disasm86
