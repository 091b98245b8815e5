import Disasm86.Explore
import Disasm86.Proofs.Pending

/-!
# Explored Sessions

The sessions that exploring leads to. A fresh session is one, and so is what a call
leaves behind that queues an entry point and explores, or that takes exploring up
again. Calls may be cancelled at any time and may come with other limits than the
calls before; only the image and the decoding context stay the same. A call that breaks
off leaves no session behind.

Cancelling is what makes the definition reach every moment of an exploration. A call
that is cancelled at its first question has queued its entry point and done nothing
else, and one that is cancelled at its second has followed one reference, so the
session between any two references is itself the outcome of calls, and so is the last
one before a call breaks off. `Explored.enqueue` and `Explored.step` say so.

An invariant is proved by `Explored.keeps`, which asks for these two small steps in
place of whole calls. The loop is looked at only there.

## Main definitions

* `Explored`: A session that calls lead to from a fresh one.

## Theorems

* `exists_ok_of_any`, `exists_session_of_any`: What has been evaluated has not failed.
* `drain_of_cancelled`: A cancelled exploration changes nothing.
* `drain_of_pending_eq_nil`: Neither does one with nothing to follow.
* `drain_succ`: One turn of the loop.
* `drain_keeps`: What following each reference keeps, draining the queue keeps.
* `Explored.keeps`: What entry points and references keep holds of explored sessions.
* `Explored.enqueue`: A session is explored once an entry point has been queued.
* `Explored.step`: A session is explored between any two references.
-/

namespace Disasm86

/-- Calls lead from a fresh session to this one. All of them are about one image and have limits
    that are allowed. They may have been cancelled, and they may have been about different entry
    points; a call that has failed leaves no session. -/
inductive Explored (image : Image) (context : DecodeContext) (allowed : Limits → Prop) :
    Session → Prop
  | fresh : Explored image context allowed .fresh
  /-- An entry point has been queued and explored. -/
  | analyze {s s' : Session} {outcome : Except Fault Unit} (h : Explored image context allowed s)
      (limits : Limits) (hlimits : allowed limits) (cancelled : Nat → Bool) (entry : Address)
      (kind : ReferenceKind)
      (hcall : Explorer.analyze ⟨image, context, limits⟩ cancelled entry kind s
        = .ok (s', outcome)) :
      Explored image context allowed s'
  /-- Exploring has been taken up again. -/
  | run {s s' : Session} {outcome : Except Fault Unit} (h : Explored image context allowed s)
      (limits : Limits) (hlimits : allowed limits) (cancelled : Nat → Bool)
      (hcall : Explorer.run ⟨image, context, limits⟩ cancelled s = .ok (s', outcome)) :
      Explored image context allowed s'

/-- What an evaluation shows of the outcome of a call that does not fail. -/
theorem exists_ok_of_any {α ε : Type} {x : Except ε α} {p : α → Bool}
    (h : x.toOption.any p = true) : ∃ a, x = .ok a ∧ p a = true := by
  cases x with
  | error cause => cases h
  | ok a => exact ⟨a, rfl, h⟩

/-- What an evaluation shows of the session that a call leaves when it comes to its end. -/
theorem exists_session_of_any {x : Except Overflow (Session × Except Fault Unit)}
    (p : Session → Bool) (h : x.toOption.any (fun y => y.2.isOk && p y.1) = true) :
    ∃ s, x = .ok (s, .ok ()) ∧ p s = true := by
  rcases exists_ok_of_any h with ⟨⟨s, outcome⟩, rfl, hany⟩
  rcases Bool.and_eq_true_iff.mp hany with ⟨hok, hp⟩
  cases outcome with
  | error fault => cases hok
  | ok done => exact ⟨s, rfl, hp⟩

/-- A loop that is cancelled at its first question gives back what it was given. -/
theorem drain_of_cancelled (e : Explorer) (cancelled : Nat → Bool) (bound asked : Nat)
    (s : Session) (h : cancelled asked = true) :
    ∃ outcome, e.drain cancelled bound asked s = .ok (s, outcome) := by
  cases bound with
  | zero => exact ⟨_, rfl⟩
  | succ bound =>
      unfold Explorer.drain
      cases s.queue.pop? with
      | none => exact ⟨_, rfl⟩
      | some next =>
          simp only [if_pos h]
          exact ⟨_, rfl⟩

/-- Nothing is followed if nothing is pending. -/
theorem drain_of_pending_eq_nil {e : Explorer} {cancelled : Nat → Bool} {bound asked : Nat}
    {s : Session} (h : s.queue.pending = []) :
    e.drain cancelled bound asked s = .ok (s, .ok ()) := by
  cases bound with
  | zero => rfl
  | succ bound =>
      unfold Explorer.drain
      cases hpop : s.queue.pop? with
      | none => rfl
      | some next =>
          rw [ReferenceQueue.pop?_eq_some hpop] at h
          cases h

section Steps

variable {e : Explorer} {cancelled : Nat → Bool} {asked : Nat} {s s' : Session} {r : Reference}
  {queue : ReferenceQueue}

/-- One turn of the loop, if nobody cancels it: what is next is followed, and then the rest
    is drained. -/
theorem drain_succ (hpop : s.queue.pop? = some (r, queue)) (hc : ¬ cancelled asked)
    (bound : Nat) : e.drain cancelled (bound + 1) asked s
      = (e.process r { s with queue := queue }).bind (e.drain cancelled bound (asked + 1)) := by
  rw [Explorer.drain]
  simp only [hpop, if_neg hc]
  cases e.process r { s with queue := queue } with
  | error cause => rfl
  | ok s => rfl

end Steps

section Keeping

variable {P : Session → Prop}

-- The induction is on the bound. Where draining stops at once the session is the one it
-- started from, and a reference that cannot be followed leaves nothing to say.
/-- The run lemma: what following a reference keeps, draining keeps, however it ends. -/
theorem drain_keeps {e : Explorer}
    (hprocess : ∀ s r queue s', P s → s.queue.pop? = some (r, queue) →
      e.process r { s with queue := queue } = .ok s' → P s')
    (cancelled : Nat → Bool) (bound asked : Nat) {s s' : Session}
    {outcome : Except Fault Unit} (h : P s)
    (hdrain : e.drain cancelled bound asked s = .ok (s', outcome)) : P s' := by
  induction bound generalizing asked s with
  | zero =>
      cases hdrain
      exact h
  | succ bound ih =>
      cases hpop : s.queue.pop? with
      | none =>
          rw [drain_of_pending_eq_nil (ReferenceQueue.pop?_eq_none hpop)] at hdrain
          cases hdrain
          exact h
      | some next =>
          rcases next with ⟨r, queue⟩
          by_cases hc : cancelled asked
          · rcases drain_of_cancelled e cancelled (bound + 1) asked s hc with ⟨_, hsame⟩
            rw [hsame] at hdrain
            cases hdrain
            exact h
          · rw [drain_succ hpop hc] at hdrain
            cases hstep : e.process r { s with queue := queue } with
            | error cause =>
                rw [hstep] at hdrain
                cases hdrain
            | ok next =>
                rw [hstep] at hdrain
                exact ih (asked + 1) (hprocess s r queue next h hpop hstep) hdrain

variable {image : Image} {context : DecodeContext} {allowed : Limits → Prop} {s : Session}

/-- A property of fresh sessions that survives the queueing of an entry point and the
    following of a reference holds of every explored session. -/
theorem Explored.keeps (hfresh : P .fresh)
    (hentry : ∀ s entry kind, P s → entry.isSomewhere →
      P (s.enqueue ⟨kind, .nowhere, entry, .nowhere⟩))
    (hprocess : ∀ s limits r queue s', P s → allowed limits → s.queue.pop? = some (r, queue) →
      Explorer.process ⟨image, context, limits⟩ r { s with queue := queue } = .ok s' → P s')
    (h : Explored image context allowed s) : P s := by
  induction h with
  | fresh => exact hfresh
  | analyze _ limits hlimits cancelled entry kind hcall ih =>
      unfold Explorer.analyze at hcall
      -- An entry point that is nowhere is not queued, and the call does nothing.
      by_cases hsome : entry.isSomewhere
      · rw [if_pos hsome] at hcall
        exact drain_keeps
          (fun s r queue s' hs hpop hstep => hprocess s limits r queue s' hs hlimits hpop hstep)
          cancelled _ _ (hentry _ entry kind ih hsome) hcall
      · rw [if_neg hsome] at hcall
        cases hcall
        exact ih
  | run _ limits hlimits cancelled hcall ih =>
      exact drain_keeps
        (fun s r queue s' hs hpop hstep => hprocess s limits r queue s' hs hlimits hpop hstep)
        cancelled _ _ ih hcall

end Keeping

namespace Explored

variable {image : Image} {context : DecodeContext} {allowed : Limits → Prop} {s s' : Session}

/-- A call that is cancelled at once has queued its entry point and nothing else. -/
theorem enqueue (h : Explored image context allowed s) {limits : Limits}
    (hlimits : allowed limits) {entry : Address} (hentry : entry.isSomewhere)
    (kind : ReferenceKind) :
    Explored image context allowed (s.enqueue ⟨kind, .nowhere, entry, .nowhere⟩) := by
  rcases drain_of_cancelled ⟨image, context, limits⟩ (fun _ => true) _ 0
    (s.enqueue ⟨kind, .nowhere, entry, .nowhere⟩) rfl with ⟨outcome, hrun⟩
  have hcall : Explorer.analyze ⟨image, context, limits⟩ (fun _ => true) entry kind s
      = .ok (s.enqueue ⟨kind, .nowhere, entry, .nowhere⟩, outcome) := by
    rw [Explorer.analyze, if_pos hentry]
    exact hrun
  exact h.analyze limits hlimits _ entry kind hcall

/-- A call that is cancelled at its second question has followed one reference. -/
theorem step (h : Explored image context allowed s) {limits : Limits}
    (hlimits : allowed limits)
    (hstep : Explorer.step? ⟨image, context, limits⟩ s = some (.ok s')) :
    Explored image context allowed s' := by
  unfold Explorer.step? at hstep
  cases hpop : s.queue.pop? with
  | none => simp only [hpop, reduceCtorEq] at hstep
  | some next =>
      rcases next with ⟨r, queue⟩
      simp only [hpop, Option.some.injEq] at hstep
      -- Something is pending, so the bound lets at least one reference be followed.
      have hbound : ∃ n, Explorer.bound ⟨image, context, limits⟩ s = n + 1 := by
        refine ⟨queue.pending.length + 2 * image.byteCount, ?_⟩
        simp only [Explorer.bound, Session.pending, ReferenceQueue.size,
          ReferenceQueue.pop?_eq_some hpop, List.length_cons]
        omega
      rcases hbound with ⟨n, hn⟩
      rcases drain_of_cancelled ⟨image, context, limits⟩ (fun asked => asked != 0) n 1 s' rfl
        with ⟨outcome, hrest⟩
      have hcall : Explorer.run ⟨image, context, limits⟩ (fun asked => asked != 0) s
          = .ok (s', outcome) := by
        rw [Explorer.run, hn, drain_succ hpop (by decide), hstep]
        exact hrest
      exact h.run limits hlimits _ hcall

end Explored

end Disasm86
