import Disasm86.Proofs.Draining
import Disasm86.Proofs.Refusals

/-!
# Cancelling and Going On

A run that is cancelled has stopped between two references and nowhere else. It leaves what
the same run, left alone, has come to at that moment, and exploring can be taken up from
there as if nothing had happened.

Both are facts about `Explorer.follow`, which takes the steps of a run without asking
anybody. A session has one successor at most, so the sessions that it can be followed to stand
on one line, and the line ends at the first session that has nothing pending or cannot be
followed. A cancelled run stops somewhere on the line, at the first question that was answered
with yes. A run that is not cancelled goes to the end of the line. The end does not depend on
where on the line one sets out, and so neither cancelling nor taking up again can change it. That
includes the run that breaks off at the end of its line: a pause can put this off and cannot
prevent it.

The bound that a run recurses on is another after a pause, because it depends on the queue.
That does no harm, since it always covers the workload and never ends a run.

## Main definitions

* `Explorer.resume`: What is left by run after run, each under a schedule of its own.

## Theorems

* `follow_add`: Following goes on from where it has come to.
* `exists_follow_of_run`: Every run stops on the line.
* `run_eq_of_follow`: Runs from anywhere on the line end alike.
* `drain_eq_cancelled`, `run_of_cancelled`: Where a run is left that has been cancelled.
* `resume_bind_run`: Taking up again and again ends as the first run would have.
* `run_interrupted`: A cancelled run has paused, and going on ends as if it had not.
-/

namespace Disasm86

namespace Explorer

variable {e : Explorer} {s s' t : Session} {cancelled : Nat → Bool} {outcome : Except Fault Unit}

/-- Following on from where following has come to. -/
theorem follow_add {m : Nat} (h : e.follow m s = some t) (n : Nat) :
    e.follow (m + n) s = e.follow n t := by
  induction m generalizing s with
  | zero =>
      cases h
      rw [Nat.zero_add]
  | succ m ih =>
      rcases follow_succ h with ⟨next, hstep, hrest⟩
      rw [show m + 1 + n = m + n + 1 by omega, follow_of_step? hstep]
      exact ih hrest

-- The bound is of no interest here: what draining keeps is that one is still on the line.
/-- However a run ends, the session that it leaves can be followed to. -/
theorem exists_follow_of_run (hrun : e.run cancelled s = .ok (t, outcome)) :
    ∃ k, e.follow k s = some t := by
  refine drain_keeps (P := fun t => ∃ k, e.follow k s = some t) ?_ cancelled _ _ ⟨0, rfl⟩ hrun
  rintro u r queue u' ⟨k, hk⟩ hpop hprocess
  refine ⟨k + 1, ?_⟩
  have hstep := step?_of_pop? (e := e) hpop
  rw [hprocess] at hstep
  rw [follow_add hk, follow_of_step? hstep, follow]

/-- A run from any session that can be followed to ends as a run from the first. This is where it
    matters that the bound never decides: the two runs have different ones. -/
theorem run_eq_of_follow (hlimit : 1 ≤ e.limits.blockInstructions) {k : Nat}
    (hfollow : e.follow k s = some t) :
    e.run (fun _ => false) t = e.run (fun _ => false) s := by
  rcases exists_follow_end hlimit t with ⟨n, last, hn, hend⟩
  have hwhole : e.follow (k + n) s = some last := by
    rw [follow_add hfollow]
    exact hn
  -- Both runs come to the same end of the line.
  rcases hend with hempty | ⟨cause, hstep⟩
  · rw [run_of_follow hlimit hn (fun _ _ => Bool.false_ne_true) hempty,
      run_of_follow hlimit hwhole (fun _ _ => Bool.false_ne_true) hempty]
  · rw [run_of_follow_error hlimit hn (fun _ _ => Bool.false_ne_true) hstep,
      run_of_follow_error hlimit hwhole (fun _ _ => Bool.false_ne_true) hstep]

/-- Something is pending if there is something to take out. -/
theorem pending_pos_iff : 0 < s.pending ↔ ∃ r queue, s.queue.pop? = some (r, queue) := by
  constructor
  · intro hpos
    cases hpop : s.queue.pop? with
    | none =>
        simp only [Session.pending, ReferenceQueue.size, ReferenceQueue.pop?_eq_none hpop,
          List.length_nil, Nat.lt_irrefl] at hpos
    | some next => exact ⟨next.1, next.2, rfl⟩
  · rintro ⟨r, queue, hpop⟩
    simp only [Session.pending, ReferenceQueue.size, ReferenceQueue.pop?_eq_some hpop,
      List.length_cons]
    omega

/-- Draining is given up for one reason only. It has then followed a reference for each question
    that was answered with no, and the one that it asked about is still pending. -/
theorem drain_eq_cancelled {bound asked : Nat} {fault : Fault}
    (h : e.drain cancelled bound asked s = .ok (s', .error fault)) :
    fault = .cancelled ∧ ∃ k, cancelled (asked + k) ∧ (∀ j < k, ¬ cancelled (asked + j))
      ∧ e.follow k s = some s' ∧ 0 < s'.pending := by
  -- By induction on the bound. Each turn asks one question and follows one reference.
  induction bound generalizing asked s with
  | zero => cases h
  | succ bound ih =>
      cases hpop : s.queue.pop? with
      | none =>
          rw [drain_of_pending_eq_nil (ReferenceQueue.pop?_eq_none hpop)] at h
          cases h
      | some next =>
          rcases next with ⟨r, queue⟩
          by_cases hc : cancelled asked
          · -- The first question: nothing has been followed.
            simp only [drain, hpop, if_pos hc] at h
            cases h
            exact ⟨rfl, 0, hc, fun j hj => by omega, rfl, pending_pos_iff.mpr ⟨r, queue, hpop⟩⟩
          · rw [drain_succ hpop hc] at h
            have hstep := step?_of_pop? (e := e) hpop
            cases hprocess : e.process r { s with queue := queue } with
            | error cause =>
                rw [hprocess] at h
                cases h
            | ok next =>
                rw [hprocess] at h hstep
                rcases ih h with ⟨hfault, k, hk, hbefore, hfollow, hpending⟩
                refine ⟨hfault, k + 1, ?_, fun j hj => ?_, ?_, hpending⟩
                · rw [show asked + (k + 1) = asked + 1 + k by omega]
                  exact hk
                · cases j with
                  | zero => exact hc
                  | succ j =>
                      rw [show asked + (j + 1) = asked + 1 + j by omega]
                      exact hbefore j (by omega)
                · rw [follow_of_step? hstep]
                  exact hfollow

/-- The other way round, a run stops at the first question that is answered with yes. -/
theorem run_of_cancelled (hlimit : 1 ≤ e.limits.blockInstructions) {k : Nat} (hk : cancelled k)
    (hbefore : ∀ j < k, ¬ cancelled j) (hfollow : e.follow k s = some s')
    (hpending : 0 < s'.pending) : e.run cancelled s = .ok (s', .error .cancelled) := by
  rcases run_eq_drain hlimit hfollow hbefore with ⟨rest, hleft, hrun⟩
  rcases pending_pos_iff.mp hpending with ⟨r, queue, hpop⟩
  -- What is pending counts as work, so the bound has not been used up after `k` steps.
  have hpos := workload_pos (e := e) hpop
  cases rest with
  | zero => omega
  | succ rest => simp only [hrun, drain, hpop, if_pos hk]

/-- Unless it is cancelled, draining does not depend on who is asked. -/
theorem drain_cancelled_or_eq (e : Explorer) (cancelled : Nat → Bool) (bound asked : Nat)
    (s : Session) :
    (∃ s' fault, e.drain cancelled bound asked s = .ok (s', .error fault))
      ∨ e.drain cancelled bound asked s = e.drain (fun _ => false) bound asked s := by
  induction bound generalizing asked s with
  | zero => exact Or.inr rfl
  | succ bound ih =>
      cases hpop : s.queue.pop? with
      | none =>
          have hempty := ReferenceQueue.pop?_eq_none hpop
          exact Or.inr (by rw [drain_of_pending_eq_nil hempty, drain_of_pending_eq_nil hempty])
      | some next =>
          rcases next with ⟨r, queue⟩
          -- The schedules are compared at the first question that is answered with yes.
          by_cases hc : cancelled asked
          · exact Or.inl ⟨s, .cancelled, by simp only [drain, hpop, if_pos hc]⟩
          · rw [drain_succ hpop hc, drain_succ hpop Bool.false_ne_true]
            cases e.process r { s with queue := queue } with
            | error cause => exact Or.inr rfl
            | ok next => exact ih (asked + 1) next

/-- What is left by run after run. Each is asked to stop by a schedule of its own, and takes
    up what the one before has left. Nothing is left if one of them breaks off. -/
def resume (e : Explorer) : List (Nat → Bool) → Session → Except Overflow Session
  | [], s => .ok s
  | cancelled :: schedules, s =>
    match e.run cancelled s with
    | .error cause => .error cause
    | .ok (s', _) => e.resume schedules s'

/-- However often exploring is taken up again, the last run ends as the first would have if
    nobody had cancelled it. -/
theorem resume_bind_run (hlimit : 1 ≤ e.limits.blockInstructions) (schedules : List (Nat → Bool))
    (s : Session) :
    (e.resume schedules s).bind (e.run (fun _ => false)) = e.run (fun _ => false) s := by
  induction schedules generalizing s with
  | nil => rfl
  | cons cancelled schedules ih =>
      rw [resume]
      cases hrun : e.run cancelled s with
      | error cause =>
          -- A run that breaks off has not been cancelled, so it is the uninterrupted one.
          rcases drain_cancelled_or_eq e cancelled (e.bound s) 0 s with ⟨s', fault, hpaused⟩ | hsame
          · rw [run, hpaused] at hrun
            cases hrun
          · rw [run, hsame] at hrun
            exact hrun.symm
      | ok left =>
          rcases exists_follow_of_run hrun with ⟨k, hk⟩
          exact (ih left.1).trans (run_eq_of_follow hlimit hk)

/-- A run is cancelled exactly if the first question answered with yes comes while something
    is pending. It has followed as many references as there were questions before; a run from
    there ends as the uninterrupted run does, and if that is through, what it leaves is reached by
    following the rest. A run that is not cancelled, and a run that takes up what cancelled runs
    have left, end as the uninterrupted one. -/
theorem run_interrupted (e : Explorer) (s : Session) (hlimit : 1 ≤ e.limits.blockInstructions) :
    (∀ cancelled s' fault, e.run cancelled s = .ok (s', .error fault) ↔ fault = .cancelled
        ∧ ∃ k, cancelled k ∧ (∀ j < k, ¬ cancelled j) ∧ e.follow k s = some s'
          ∧ 0 < s'.pending
          ∧ e.run (fun _ => false) s' = e.run (fun _ => false) s
          ∧ ∀ t outcome, e.run (fun _ => false) s = .ok (t, outcome) →
            ∃ rest, 0 < rest ∧ e.follow rest s' = some t)
      ∧ (∀ cancelled, (∀ s' fault, e.run cancelled s ≠ .ok (s', .error fault)) →
        e.run cancelled s = e.run (fun _ => false) s)
      ∧ ∀ schedules, (e.resume schedules s).bind (e.run (fun _ => false))
        = e.run (fun _ => false) s := by
  refine ⟨fun cancelled s' fault => ⟨fun h => ?_, ?_⟩, fun cancelled hnot => ?_,
    fun schedules => resume_bind_run hlimit schedules s⟩
  · rcases drain_eq_cancelled h with ⟨hfault, k, hk, hbefore, hfollow, hpending⟩
    simp only [Nat.zero_add] at hk hbefore
    have hsame := run_eq_of_follow hlimit hfollow
    refine ⟨hfault, k, hk, hbefore, hfollow, hpending, hsame, fun t outcome hrun => ?_⟩
    rw [← hsame] at hrun
    -- The rest of the way is not empty, since nothing is pending at the end of it.
    rcases exists_follow_of_run hrun with ⟨rest, hrest⟩
    refine ⟨rest, Nat.pos_of_ne_zero ?_, hrest⟩
    rintro rfl
    cases hrest
    rcases drains_or_breaksOff hlimit s' with ⟨n, last, -, -, hempty, hlast⟩ | ⟨cause, -, herror⟩
    · rw [hrun] at hlast
      cases hlast
      simp only [Session.pending, ReferenceQueue.size, hempty, List.length_nil,
        Nat.lt_irrefl] at hpending
    · rw [hrun] at herror
      cases herror
  · rintro ⟨rfl, k, hk, hbefore, hfollow, hpending, -⟩
    exact run_of_cancelled hlimit hk hbefore hfollow hpending
  · rcases drain_cancelled_or_eq e cancelled (e.bound s) 0 s with ⟨s', fault, hpaused⟩ | hsame
    · exact absurd hpaused (hnot s' fault)
    · exact hsame

/-- A jump through a table, stopped after three references, then at once, and then after one
    more. A slot has been taken by then, and its target and the slot behind it are pending. -/
theorem run_interrupted_caseJump :
    let e : Explorer := ⟨caseJump, {}, {}⟩
    let s := Session.fresh.enqueue ⟨.entry, .nowhere, ⟨0, 0⟩, .nowhere⟩
    ∃ paused, e.resume [fun n => n = 3, fun _ => true, fun n => n = 1] s = .ok paused
      ∧ paused.pending = 2 ∧ paused.bytes.count .data = 2
      ∧ e.run (fun _ => false) paused = e.run (fun _ => false) s
      ∧ ∃ k s', e.run (fun n => n = 3) s = .ok (s', .error .cancelled)
        ∧ e.follow k s = some s' := by
  intro e s
  have hinterrupted := run_interrupted e s (by decide)
  have hpaused : (e.resume [fun n => n = 3, fun _ => true, fun n => n = 1] s).toOption.any
      (fun paused => decide (paused.pending = 2 ∧ paused.bytes.count .data = 2)) = true := by
    decide +kernel
  have hcancelled : (e.run (fun n => n = 3) s).toOption.any (fun x => !x.2.isOk) = true := by
    decide +kernel
  rcases exists_ok_of_any hpaused with ⟨paused, hresume, hcounts⟩
  rcases of_decide_eq_true hcounts with ⟨hpending, hdata⟩
  -- The run that goes on from there is the uninterrupted one.
  have hgoingOn := hinterrupted.2.2 [fun n => n = 3, fun _ => true, fun n => n = 1]
  rw [hresume] at hgoingOn
  refine ⟨paused, hresume, hpending, hdata, hgoingOn, ?_⟩
  rcases exists_ok_of_any hcancelled with ⟨⟨s', outcome⟩, hrun, hfailed⟩
  cases outcome with
  | ok done => cases hfailed
  | error fault =>
      rcases (hinterrupted.1 _ s' fault).mp hrun with ⟨rfl, k, -, -, hfollow, -⟩
      exact ⟨k, s', hrun, hfollow⟩

end Explorer

end Disasm86
