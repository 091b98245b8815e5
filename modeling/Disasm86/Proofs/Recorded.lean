import Disasm86.Proofs.Postings
import Disasm86.Reference.Log

/-!
# The Log of References as a List

Some readers of the log go through all of it and others ask for the references of one address.
They are served from different places, the entries and the two indexes beside them, and what makes
them agree is that every reference is entered at its two ends under the position that it is about
to get.

The two ends are not alike. A reference that a user asked for has no source, one through a register
has no target, and an end that is unknown is left out of its index while the other end is entered.
So the key of an end is optional, and the address that stands for the unknown is a key like any
other as long as nothing is ever entered under it.

A reference that is refused leaves no trace: the position it would have had goes to the next one.

## Main definitions

* `Address.known?`: An address, unless it is the one that names no place.
* `ReferenceLog.WellIndexed`: Both indexes are in step with the entries.
* `ReferenceLog.after`, `ReferenceLog.ofHistory`: The log behind attempts to record.
* `ReferenceLog.AnswersAs`: A log answers as a list of references does.

## Theorems

* `ReferenceLog.WellIndexed.push`: One more reference keeps the indexes in step.
* `ReferenceLog.record_eq_error_iff`: What is refused.
* `ReferenceLog.foldl_after`: What attempts to record leave.
* `ReferenceLog.answersAs_ofHistory`: Behind any attempts, a log answers as the list of those
  that have a known end.
-/

namespace Disasm86

/-- The address, unless it is the one that names no place. -/
def Address.known? (a : Address) : Option Address := if a = nowhere then none else some a

theorem Address.isSomewhere_iff {a : Address} : a.isSomewhere = true ↔ a ≠ nowhere := by
  unfold isSomewhere
  exact bne_iff_ne

/-- A reference can be recorded if one of its ends is known. The other may be missing, as the source
    of an entry point is. -/
theorem Reference.isAnchored_iff {r : Reference} :
    r.isAnchored = true ↔ r.source ≠ .nowhere ∨ r.target ≠ .nowhere := by
  unfold isAnchored
  rw [Bool.or_eq_true, Address.isSomewhere_iff, Address.isSomewhere_iff]

theorem Address.known?_eq_some_iff {a b : Address} : a.known? = some b ↔ a = b ∧ b ≠ nowhere := by
  unfold known?
  split <;> grind

namespace ReferenceLog

variable {log : ReferenceLog} {r : Reference} {a : Address}

/-- Both indexes are in step with the entries, by the ends that are known. -/
structure WellIndexed (log : ReferenceLog) : Prop where
  bySource : log.bySource.Indexes (fun r => r.source.known?) log.entries
  byTarget : log.byTarget.Indexes (fun r => r.target.known?) log.entries

/-- The log behind an attempt to record a reference. -/
def after (log : ReferenceLog) (r : Reference) : ReferenceLog :=
  match log.record r with
  | .ok log' => log'
  | .error _ => log

/-- The log behind attempts to record references, one after the other. -/
def ofHistory (history : List Reference) : ReferenceLog := history.foldl after empty

/-- A log answers as a list of references does, and refuses what has no known end. The address that
    names no place is not an end: nothing is found under it, although references may have it. -/
structure AnswersAs (log : ReferenceLog) (recorded : List Reference) : Prop where
  refused_iff : ∀ r cause, log.record r = .error cause
    ↔ cause = .unanchoredReference ∧ r.source = .nowhere ∧ r.target = .nowhere
  kept : ∀ r, r.source = .nowhere → r.target = .nowhere → log.after r = log
  toList_eq : log.toList = recorded
  leaving_eq : ∀ a, a ≠ .nowhere → log.leaving a = recorded.filter fun r => r.source = a
  arriving_eq : ∀ a, a ≠ .nowhere → log.arriving a = recorded.filter fun r => r.target = a
  leaving_nowhere : log.leaving .nowhere = []
  arriving_nowhere : log.arriving .nowhere = []

/-- Posting an end of the next reference keeps an index in step, whether the end is known or
    not. -/
theorem indexes_postKnown {index : Postings Address} {entries : Array Reference}
    {side : Reference → Address} (h : index.Indexes (fun r => (side r).known?) entries)
    (r : Reference) : (postKnown index (side r) entries.size).Indexes
      (fun r => (side r).known?) (entries.push r) := by
  unfold postKnown
  split
  · rename_i hsome
    exact h.post (Address.known?_eq_some_iff.mpr ⟨rfl, Address.isSomewhere_iff.mp hsome⟩)
  · rename_i hnone
    refine h.skip ?_
    rw [Address.isSomewhere_iff, not_not] at hnone
    simp only [hnone]
    rfl

/-- A reference is posted under each of its ends, by one argument for both indexes. -/
theorem WellIndexed.push (h : log.WellIndexed) (r : Reference) : (log.push r).WellIndexed :=
  ⟨indexes_postKnown h.bySource r, indexes_postKnown h.byTarget r⟩

theorem wellIndexed_empty : empty.WellIndexed :=
  ⟨Postings.indexes_empty _, Postings.indexes_empty _⟩

/-- Selecting by an end that is known filters by it, and nothing is found under the address that
    names no place. -/
theorem select_eq_filter {index : Postings Address} {side : Reference → Address}
    (h : index.Indexes (fun r => (side r).known?) log.entries) (a : Address) :
    index.select a log.entries
      = if a = .nowhere then [] else log.toList.filter fun r => side r = a := by
  rw [h.select_eq]
  split
  · rename_i ha
    rw [List.filter_eq_nil_iff]
    intro r _
    simp [Address.known?_eq_some_iff, ha]
  · rename_i ha
    refine List.filter_congr fun r _ => ?_
    simp [Address.known?_eq_some_iff, ha]

/-- Only a reference without a known end is refused. -/
theorem record_eq_error_iff {cause : Fault} : log.record r = .error cause
    ↔ cause = .unanchoredReference ∧ r.source = .nowhere ∧ r.target = .nowhere := by
  unfold record
  by_cases h : r.isAnchored
  · rw [if_pos h]
    rw [Reference.isAnchored_iff] at h
    grind
  · rw [if_neg h]
    rw [Reference.isAnchored_iff] at h
    grind

/-- An attempt that is refused leaves the log as it was. -/
theorem after_eq (log : ReferenceLog) (r : Reference) :
    log.after r = if r.isAnchored then log.push r else log := by
  unfold after record
  split <;> grind

/-- Attempts to record add the references that have a known end, in their order, and the indexes
    stay in step. -/
theorem foldl_after (h : log.WellIndexed) (history : List Reference) :
    (history.foldl after log).WellIndexed
      ∧ (history.foldl after log).toList = log.toList ++ history.filter Reference.isAnchored := by
  -- By induction on the attempts, from any log that is in step.
  induction history generalizing log with
  | nil => exact ⟨h, (List.append_nil _).symm⟩
  | cons r rest ih =>
      rw [List.foldl_cons, after_eq]
      by_cases hr : r.isAnchored
      · have hrest := ih (h.push r)
        have hpush : (log.push r).toList = log.toList ++ [r] := Array.toList_push
        rw [if_pos hr, List.filter_cons_of_pos hr]
        rw [hpush, List.append_assoc, List.singleton_append] at hrest
        exact hrest
      · rw [if_neg hr, List.filter_cons_of_neg hr]
        exact ih h

/-- After any attempts to record, a log answers as the list of the references that have a known
    end: in the order of the attempts, with repetitions, and the same from both of its indexes. -/
theorem answersAs_ofHistory (history : List Reference) : (ofHistory history).AnswersAs
    (history.filter fun r => r.source ≠ .nowhere ∨ r.target ≠ .nowhere) := by
  rcases foldl_after wellIndexed_empty history with ⟨hindexed, hlist⟩
  have hrecorded : (ofHistory history).toList
      = history.filter fun r => r.source ≠ .nowhere ∨ r.target ≠ .nowhere := by
    refine hlist.trans ?_
    refine List.filter_congr fun r _ => ?_
    rw [Bool.eq_iff_iff, Reference.isAnchored_iff, decide_eq_true_iff]
  have hleaving := select_eq_filter hindexed.bySource
  have harriving := select_eq_filter hindexed.byTarget
  -- All answers come from the list of entries or from one of the two indexes.
  exact {
    refused_iff := fun r cause => record_eq_error_iff
    kept := by
      intro r hsource htarget
      rw [after_eq, if_neg]
      rw [Reference.isAnchored_iff, hsource, htarget]
      simp
    toList_eq := hrecorded
    leaving_eq := by
      intro a ha
      rw [← hrecorded]
      exact (hleaving a).trans (if_neg ha)
    arriving_eq := by
      intro a ha
      rw [← hrecorded]
      exact (harriving a).trans (if_neg ha)
    leaving_nowhere := (hleaving _).trans (if_pos rfl)
    arriving_nowhere := (harriving _).trans (if_pos rfl) }

-- The call is recorded twice, the second attempt is refused, and the entry has no source.
example : let call : Reference := ⟨.transfer .nearCall, ⟨0, 0x10⟩, ⟨0, 0x40⟩, .nowhere⟩
    let dangling : Reference := ⟨.transfer .nearJump, .nowhere, .nowhere, .nowhere⟩
    let entry : Reference := ⟨.entry, .nowhere, ⟨0, 0x40⟩, .nowhere⟩
    let log := ofHistory [call, dangling, call, entry]
    log.toList = [call, call, entry] ∧ log.leaving ⟨0, 0x10⟩ = [call, call]
      ∧ log.arriving ⟨0, 0x40⟩ = [call, call, entry] ∧ log.leaving .nowhere = [] := by
  decide +kernel

end ReferenceLog

end Disasm86
