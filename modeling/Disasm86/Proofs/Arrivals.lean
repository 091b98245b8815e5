import Disasm86.Proofs.Lanes

/-!
# Serving by Rank and Arrival

The queue against a plain description of what it should do. Keep everything that waits in
one list, in the order in which it came. To serve the next reference, look for the least
rank in the list, and take the first that has it. That is slow and obviously right, and the
queue does the same.

The two are compared after an arbitrary history of pushes and pops. What ties them together
is a statement for each rank on its own: the references of a rank that are pending are those
that wait, in the same order. Pushing puts a reference at the end of its rank on both sides,
and popping takes away the first of the least rank on both. Since the pending references
ascend in rank, nothing else has to be known about how ranks are mixed: a list that ascends
is determined by its parts of one rank each. In particular the pending references are the
waiting ones, sorted by rank with a sort that keeps the order of equals.

## Main definitions

* `QueueEvent`: A push or a pop.
* `Service`: A queue and what it has handed out so far.
* `isLeast`, `waiting`: The plain description.
* `Served`: What holds of a queue after a history.

## Theorems

* `Ranked.pairwise_pending`: Pending references ascend in rank.
* `eq_of_filter_rank_eq`: A list that ascends is determined by its ranks.
* `Waits.push`, `Waits.pop`: The queue keeps up with the description.
* `Waits.pending_eq_mergeSort`: What is pending is what waits, sorted.
* `served_ofHistory`: Every history is served by rank and arrival.
* `served_pushes`: To push references and pop them all is to sort them.
-/

namespace Disasm86

/-- What may happen to a queue. -/
inductive QueueEvent where
  | push (r : Reference)
  | pop
deriving DecidableEq, Repr

/-- A queue, and what it has handed out, the first one first. -/
structure Service where
  queue : ReferenceQueue := .empty
  served : List Reference := []

namespace Service

/-- One more thing happens to a queue. A pop of an empty queue hands out nothing. -/
def after (x : Service) : QueueEvent → Service
  | .push r => { x with queue := x.queue.push r }
  | .pop =>
    match x.queue.pop? with
    | none => x
    | some (r, queue) => ⟨queue, x.served ++ [r]⟩

/-- A queue that was empty at first, after a history. -/
def ofHistory (events : List QueueEvent) : Service := events.foldl after {}

end Service

namespace QueueEvent

/-- The reference that an event brings, if it brings one. -/
def reference? : QueueEvent → Option Reference
  | .push r => some r
  | .pop => none

/-- Everything that came in, the first one first. -/
def pushed (events : List QueueEvent) : List Reference := events.filterMap reference?

/-- Whether nothing in a list is of lower rank. -/
def isLeast (waiting : List Reference) (r : Reference) : Bool :=
  waiting.all fun x => r.kind.rank ≤ x.kind.rank

/-- What waits after one more event, in the order of arrival. A pop takes away the first
    that is of the least rank. -/
def waitingAfter (waiting : List Reference) : QueueEvent → List Reference
  | .push r => waiting ++ [r]
  | .pop => waiting.eraseP (isLeast waiting)

/-- What waits after a history, in the order of arrival. -/
def waiting (events : List QueueEvent) : List Reference := events.foldl waitingAfter []

/-- The order of service. Sorting by it keeps references of one rank as they are. -/
def byRank (x y : Reference) : Bool := x.kind.rank ≤ y.kind.rank

end QueueEvent

open QueueEvent

namespace ReferenceQueue

/-- Pending references ascend in rank. -/
theorem Ranked.pairwise_pending {q : ReferenceQueue} (h : q.Ranked) :
    q.pending.Pairwise fun x y => x.kind.rank ≤ y.kind.rank := by
  unfold pending
  rw [List.pairwise_flatMap]
  constructor
  · -- In one lane all are of one rank.
    intro x hx
    refine List.pairwise_of_forall_mem_list fun r hr r' hr' => Nat.le_of_eq ?_
    rw [h.uniform x hx r hr, h.uniform x hx r' hr']
  · refine h.ascending.imp_of_mem fun {x y} hx hy hlt r hr r' hr' => ?_
    rw [h.uniform x hx r hr, h.uniform y hy r' hr']
    omega

end ReferenceQueue

/-- Lists that have the same parts of one rank each have the same members. -/
theorem mem_iff_of_filter_rank_eq {l l' : List Reference}
    (hfilter : ∀ k, l.filter (·.kind.rank = k) = l'.filter (·.kind.rank = k)) (x : Reference) :
    x ∈ l ↔ x ∈ l' := by
  have hx := congrArg (x ∈ ·) (hfilter x.kind.rank)
  simpa using hx

/-- A list that ascends in rank is determined by its parts of one rank each. -/
theorem eq_of_filter_rank_eq {l l' : List Reference}
    (h : l.Pairwise fun x y => x.kind.rank ≤ y.kind.rank)
    (h' : l'.Pairwise fun x y => x.kind.rank ≤ y.kind.rank)
    (hfilter : ∀ k, l.filter (·.kind.rank = k) = l'.filter (·.kind.rank = k)) : l = l' := by
  induction l generalizing l' with
  | nil =>
      refine (List.eq_nil_iff_forall_not_mem.mpr fun x hx => ?_).symm
      exact absurd ((mem_iff_of_filter_rank_eq hfilter x).mpr hx) List.not_mem_nil
  | cons x l ih =>
      have hmem := mem_iff_of_filter_rank_eq hfilter
      cases l' with
      | nil => exact absurd ((hmem x).mp List.mem_cons_self) List.not_mem_nil
      | cons y l' =>
          rw [List.pairwise_cons] at h h'
          -- Both heads are of the least rank, so they are of the same, and it starts with both.
          have hle : ∀ z ∈ x :: l, x.kind.rank ≤ z.kind.rank := by
            intro z hz
            rcases List.mem_cons.mp hz with rfl | hz
            · exact Nat.le_refl _
            · exact h.1 z hz
          have hle' : ∀ z ∈ y :: l', y.kind.rank ≤ z.kind.rank := by
            intro z hz
            rcases List.mem_cons.mp hz with rfl | hz
            · exact Nat.le_refl _
            · exact h'.1 z hz
          have hrank : y.kind.rank = x.kind.rank := by
            have hxy := hle y ((hmem y).mpr List.mem_cons_self)
            have hyx := hle' x ((hmem x).mp List.mem_cons_self)
            omega
          have hhead := hfilter x.kind.rank
          rw [List.filter_cons_of_pos (by simp), List.filter_cons_of_pos (by simp [hrank])] at hhead
          have hxy : x = y := List.head_eq_of_cons_eq hhead
          subst hxy
          have htail : ∀ k, l.filter (·.kind.rank = k) = l'.filter (·.kind.rank = k) := by
            intro k
            have hk := hfilter k
            rw [List.filter_cons, List.filter_cons] at hk
            split at hk
            · exact List.tail_eq_of_cons_eq hk
            · exact hk
          rw [ih h.2 h'.2 htail]

/-- A queue keeps up with what waits: it is ranked, and has the references of each rank in the order
    of arrival. Together the two say what is pending, because a list that ascends in rank is put
    together from its parts of one rank each. -/
structure Waits (q : ReferenceQueue) (waiting : List Reference) : Prop where
  ranked : q.Ranked
  filter_eq : ∀ k, q.pending.filter (·.kind.rank = k) = waiting.filter (·.kind.rank = k)

namespace Waits

variable {q queue : ReferenceQueue} {waiting : List Reference} {r : Reference}

/-- What comes in is the last of its rank, in the queue and among what waits. -/
theorem push (h : Waits q waiting) (r : Reference) : Waits (q.push r) (waiting ++ [r]) where
  ranked := h.ranked.push r
  filter_eq k := by
    rw [h.ranked.filter_push (fun x hx => of_decide_eq_true hx), h.filter_eq, List.filter_append]

/-- What is popped is the first that waits of those of the least rank. -/
theorem pop (h : Waits q waiting) (hpop : q.pop? = some (r, queue)) :
    waiting.find? (isLeast waiting) = some r ∧ Waits queue (waiting.eraseP (isLeast waiting)) := by
  have hpending := ReferenceQueue.pop?_eq_some hpop
  have hsorted := h.ranked.pairwise_pending
  rw [hpending, List.pairwise_cons] at hsorted
  -- Nothing that waits is of lower rank than the reference.
  have hle : ∀ x ∈ waiting, r.kind.rank ≤ x.kind.rank := by
    intro x hx
    have hmem := (mem_iff_of_filter_rank_eq h.filter_eq x).mpr hx
    rw [hpending] at hmem
    rcases List.mem_cons.mp hmem with rfl | hmem
    · exact Nat.le_refl _
    · exact hsorted.1 x hmem
  -- It is the first of its rank among the pending ones, and so among the waiting ones.
  have hfirst := h.filter_eq r.kind.rank
  rw [hpending, List.filter_cons_of_pos (by simp), eq_comm, List.filter_eq_cons_iff] at hfirst
  rcases hfirst with ⟨front, back, hsplit, hfront, -, hback⟩
  have hleast : isLeast waiting r := by
    simpa [isLeast] using hle
  have hbefore : ∀ x ∈ front, ¬ isLeast waiting x := by
    intro x hx hx'
    have hr : r ∈ waiting := by
      rw [hsplit]
      exact List.mem_append_right _ List.mem_cons_self
    have hxr : x.kind.rank ≤ r.kind.rank := by
      simp only [isLeast, List.all_eq_true, decide_eq_true_eq] at hx'
      exact hx' r hr
    have hrx := hle x (by rw [hsplit]; exact List.mem_append_left _ hx)
    exact hfront x hx (decide_eq_true (by omega))
  have herase : waiting.eraseP (isLeast waiting) = front ++ back := by
    have hparts := List.eraseP_append_right (r :: back) hbefore
    rw [List.eraseP_cons_of_pos hleast, ← hsplit] at hparts
    exact hparts
  refine ⟨List.find?_eq_some_iff_append.mpr ⟨hleast, front, back, hsplit, fun x hx => ?_⟩, ?_⟩
  · simpa using hbefore x hx
  · rw [herase]
    refine ⟨h.ranked.pop? hpop, fun k => ?_⟩
    -- Of the rank that was served the first is gone, and of other ranks nothing is.
    have hk := h.filter_eq k
    rw [hpending, hsplit, List.filter_append, List.filter_cons, List.filter_cons] at hk
    by_cases hrank : r.kind.rank = k
    · subst hrank
      have hnone : front.filter (·.kind.rank = r.kind.rank) = [] :=
        List.filter_eq_nil_iff.mpr hfront
      rw [List.filter_append, hnone, List.nil_append, hback]
    · simp only [hrank, decide_false, Bool.false_eq_true, if_false] at hk
      rw [hk, List.filter_append]

/-- If there is nothing to pop, then nothing waits. -/
theorem eq_nil (h : Waits q waiting) (hpop : q.pop? = none) : waiting = [] := by
  refine List.eq_nil_iff_forall_not_mem.mpr fun x hx => ?_
  have hmem := (mem_iff_of_filter_rank_eq h.filter_eq x).mpr hx
  rw [ReferenceQueue.pop?_eq_none hpop] at hmem
  exact List.not_mem_nil hmem

/-- What is pending is what waits, sorted by rank. -/
theorem pending_eq_mergeSort (h : Waits q waiting) : q.pending = waiting.mergeSort byRank := by
  -- Comparing by rank is transitive and total, so sorting gives a list that ascends.
  have htrans : ∀ a b c, byRank a b → byRank b c → byRank a c := by
    intro a b c hab hbc
    simp only [byRank, decide_eq_true_eq] at *
    omega
  have htotal : ∀ a b, byRank a b || byRank b a := by
    intro a b
    simp only [byRank, Bool.or_eq_true, decide_eq_true_eq]
    omega
  refine eq_of_filter_rank_eq h.ranked.pairwise_pending ?_ fun k => ?_
  · refine (List.pairwise_mergeSort htrans htotal waiting).imp fun {x y} hxy => ?_
    simpa [byRank] using hxy
  · -- A part of one rank ascends already, so sorting leaves it in order.
    rw [h.filter_eq k]
    have hpart : (waiting.filter (·.kind.rank = k)).Pairwise fun x y => byRank x y := by
      refine List.pairwise_of_forall_mem_list fun x hx y hy => ?_
      have hx' := of_decide_eq_true (List.mem_filter.mp hx).2
      have hy' := of_decide_eq_true (List.mem_filter.mp hy).2
      exact decide_eq_true (by omega)
    have hsublist := (List.sublist_mergeSort htrans htotal hpart List.filter_sublist).filter
      (·.kind.rank = k)
    rw [List.filter_filter] at hsublist
    simp only [Bool.and_self] at hsublist
    exact hsublist.eq_of_length ((List.mergeSort_perm waiting byRank).filter _).length_eq.symm

/-- So nothing is lost or made up by the order of service. -/
theorem perm (h : Waits q waiting) : q.pending.Perm waiting := by
  rw [h.pending_eq_mergeSort]
  exact List.mergeSort_perm waiting byRank

end Waits

namespace Service

/-- The step lemma: whatever happens, the queue keeps up with what waits. -/
theorem waits_after {x : Service} {waiting : List Reference} (h : Waits x.queue waiting)
    (event : QueueEvent) : Waits (x.after event).queue (waitingAfter waiting event) := by
  cases event with
  | push r => exact h.push r
  | pop =>
      cases hpop : x.queue.pop? with
      | none =>
          have hempty := h.eq_nil hpop
          subst hempty
          simp only [after, hpop]
          exact h
      | some next =>
          simp only [after, hpop]
          exact (h.pop hpop).2

/-- The run lemma: it has kept up after every history. -/
theorem waits_ofHistory (events : List QueueEvent) :
    Waits (ofHistory events).queue (waiting events) := by
  have hrun : ∀ (x : Service) (w : List Reference), Waits x.queue w →
      Waits (events.foldl after x).queue (events.foldl waitingAfter w) := by
    induction events with
    | nil => exact fun x w h => h
    | cons event events ih => exact fun x w h => ih _ _ (waits_after h event)
  exact hrun {} [] ⟨ReferenceQueue.ranked_empty, fun k => rfl⟩

/-- What has been handed out and what is pending is what came in. -/
theorem perm_after (x : Service) (event : QueueEvent) :
    ((x.after event).served ++ (x.after event).queue.pending).Perm
      (x.served ++ x.queue.pending ++ event.reference?.toList) := by
  cases event with
  | push r =>
      refine ((x.queue.pending_push_perm r).append_left _).trans ?_
      refine List.perm_middle.trans ?_
      exact (List.perm_append_singleton r (x.served ++ x.queue.pending)).symm
  | pop =>
      unfold after
      cases hpop : x.queue.pop? with
      | none => simp [reference?]
      | some next => simp [reference?, ReferenceQueue.pop?_eq_some hpop]

/-- Nothing is lost over a whole history either. -/
theorem perm_ofHistory (events : List QueueEvent) :
    ((ofHistory events).served ++ (ofHistory events).queue.pending).Perm (pushed events) := by
  -- From any state on, what is handed out and what is pending grow by what comes in.
  have hrun : ∀ x : Service,
      ((events.foldl after x).served ++ (events.foldl after x).queue.pending).Perm
        (x.served ++ x.queue.pending ++ pushed events) := by
    induction events with
    | nil =>
        intro x
        simp [pushed]
    | cons event events ih =>
        intro x
        refine (ih (x.after event)).trans ?_
        refine ((x.perm_after event).append_right (pushed events)).trans (List.Perm.of_eq ?_)
        cases event with
        | push r => simp [pushed, reference?]
        | pop =>
            rw [reference?, Option.toList_none, List.append_nil]
            rfl
  exact hrun {}

/-- Popping as often as there is something pending hands out all of it, in turn. -/
theorem served_replicate_pop (x : Service) :
    ((List.replicate x.queue.size .pop).foldl after x).served
      = x.served ++ x.queue.pending := by
  -- By induction on the number of references, each pop handing out the first of them.
  generalize hsize : x.queue.size = n
  induction n generalizing x with
  | zero =>
      have hempty : x.queue.pending = [] := List.eq_nil_of_length_eq_zero hsize
      simp [hempty]
  | succ n ih =>
      rw [List.replicate_succ, List.foldl_cons]
      cases hpop : x.queue.pop? with
      | none =>
          rw [ReferenceQueue.size, ReferenceQueue.pop?_eq_none hpop] at hsize
          cases hsize
      | some next =>
          rcases next with ⟨r, queue⟩
          have hpending := ReferenceQueue.pop?_eq_some hpop
          have hafter : x.after .pop = ⟨queue, x.served ++ [r]⟩ := by
            simp only [after, hpop]
          rw [hafter, ih, hpending, List.append_assoc, List.singleton_append]
          rw [ReferenceQueue.size, hpending, List.length_cons] at hsize
          exact Nat.succ.inj hsize

end Service

/-- A queue serves by rank and arrival, as it stands after a history. What waits is a plain list
    that knows nothing of lanes, so this says what the lanes are for. -/
structure Served (events : List QueueEvent) : Prop where
  /-- Nothing gets lost, and nothing comes out that did not come in. -/
  conserved : ((Service.ofHistory events).served ++ (Service.ofHistory events).queue.pending).Perm
    (pushed events)
  /-- What is pending is what waits. -/
  pending_perm : (Service.ofHistory events).queue.pending.Perm (waiting events)
  /-- The next one is the earliest of the least rank. -/
  next : (Service.ofHistory events).queue.pop?.map (·.1)
    = (waiting events).find? (isLeast (waiting events))
  /-- If nothing more comes in, what waits is handed out in the order of a stable sort. -/
  drained : (Service.ofHistory (events
      ++ List.replicate (Service.ofHistory events).queue.size .pop)).served
    = (Service.ofHistory events).served ++ (waiting events).mergeSort byRank

/-- Every history is served by rank and arrival, with pushes and pops in any order. -/
theorem served_ofHistory (events : List QueueEvent) : Served events where
  conserved := Service.perm_ofHistory events
  pending_perm := (Service.waits_ofHistory events).perm
  next := by
    have hwaits := Service.waits_ofHistory events
    cases hpop : (Service.ofHistory events).queue.pop? with
    | none => simp [hwaits.eq_nil hpop]
    | some next => exact (hwaits.pop hpop).1.symm
  drained := by
    rw [← (Service.waits_ofHistory events).pending_eq_mergeSort]
    unfold Service.ofHistory
    rw [List.foldl_append]
    exact Service.served_replicate_pop _

/-- What waits after pushes alone is what was pushed. -/
theorem waiting_map_push (rs : List Reference) : waiting (rs.map .push) = rs := by
  have hrun : ∀ w, (rs.map QueueEvent.push).foldl waitingAfter w = w ++ rs := by
    induction rs with
    | nil => simp
    | cons r rs ih =>
        intro w
        simp [waitingAfter, ih]
  exact hrun []

/-- Pushes alone hand out nothing. -/
theorem served_map_push (rs : List Reference) :
    (Service.ofHistory (rs.map .push)).served = [] := by
  have hrun : ∀ x : Service, ((rs.map QueueEvent.push).foldl Service.after x).served
      = x.served := by
    induction rs with
    | nil => exact fun x => rfl
    | cons r rs ih => exact fun x => ih (x.after (.push r))
  exact hrun {}

/-- To push references and pop them all is to sort them by rank. -/
theorem served_pushes (rs : List Reference) : (Service.ofHistory
    (rs.map .push ++ List.replicate rs.length .pop)).served = rs.mergeSort byRank := by
  have hwaits := Service.waits_ofHistory (rs.map .push)
  have hdrained := (served_ofHistory (rs.map .push)).drained
  rw [waiting_map_push] at hwaits hdrained
  have hsize : (Service.ofHistory (rs.map .push)).queue.size = rs.length := hwaits.perm.length_eq
  rw [hsize, served_map_push, List.nil_append] at hdrained
  exact hdrained

end Disasm86
