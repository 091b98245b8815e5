import Disasm86.Explore.Straight
import Disasm86.Proofs.Emission
import Disasm86.Proofs.Run

/-!
# What Decoding a Stretch Does

Straight-line decoding told as one step. `Explorer.decodeStretch` goes from instruction
to instruction and writes to the session as it goes, and there are several ways for it to
end. Every fact about exploring passes through it, so its loop is opened once, here,
and the outcome is kept as a relation with one case for each way to end.

In all cases but one a run of instructions has been taken over, of which nothing was
known before. The cases say what else happened: which reference was queued, or what was
reported, and at the end of which run. They also keep the reason, from which it follows
that decoding would stop at the same place again. In the last case there is nothing to
go on with, because an instruction had to be named that has no text.

Nothing is assumed of the session. The relation therefore also holds of sessions that
somebody has written to by hand, where the stores need not fit each other, and that is
where bounds on the work to be done come from.

## Main definitions

* `Fresh`: A run of the image of whose bytes a session knows nothing.
* `Obstacle`: Why no further instruction can be taken over.
* `StopReport`: The reports about the end of a stretch.
* `Unnamable`: An instruction that would have to be reported and has no text.
* `StretchOutcome`: The ways in which decoding a stretch ends.

## Theorems

* `except_map_eq_ok`, `except_map_eq_error`: What a mapped outcome comes from.
* `mark_of_fresh`: The bytes of a fresh instruction can be marked.
* `decodeStretch_outcome`: Decoding a stretch ends in one of these ways.
-/

namespace Disasm86

section Outcomes

variable {α β ε : Type} {x : Except ε α} {f : α → β}

/-- Only a result can be mapped to a result. -/
theorem except_map_eq_ok {b : β} : x.map f = .ok b ↔ ∃ a, x = .ok a ∧ f a = b := by
  cases x with
  | error cause => simp only [Except.map, reduceCtorEq, false_and, exists_false]
  | ok a => simp only [Except.map, Except.ok.injEq, exists_eq_left']

theorem except_map_eq_error {cause : ε} : x.map f = .error cause ↔ x = .error cause := by
  cases x with
  | error cause' => simp only [Except.map, Except.error.injEq]
  | ok a => simp only [Except.map, reduceCtorEq]

end Outcomes

/-- The image has the run, and the session knows nothing of its bytes. Such a run can be taken over
    without touching anything that is known. -/
structure Fresh (e : Explorer) (s : Session) (start : Address) (is : List Instruction) :
    Prop where
  run : IsRun (e.image.instructionAt? e.context) start is
  unknown : ∀ a, start.Spans (Run.size is) a → (s.bytes.get a).kind = .unknown

/-- What keeps decoding from going on at an address, with the diagnostic it leads to. -/
inductive Obstacle (e : Explorer) (s : Session) (a : Address) : DiagnosticCode → String → Prop
  /-- The address lies outside the image. -/
  | outside (h : e.image.window? a = none) :
      Obstacle e s a .outOfImage "Execution runs past the end of the segment"
  /-- The bytes there are no instruction. -/
  | undecodable (code : List UInt8) (cause : DecodeError) (hw : e.image.window? a = some code)
      (hd : decode e.context code = .error cause) :
      Obstacle e s a .invalidInstruction cause.message
  /-- The instruction there reaches into bytes that are known. -/
  | overlap (i : Instruction) (hi : e.image.instructionAt? e.context a = some i)
      (hknown : ¬ ∀ b, a.Spans i.length b → (s.bytes.get b).kind = .unknown) (text : String)
      (htext : i.text = .ok text) :
      Obstacle e s a .overlappingInstruction (text ++ " overlaps already classified bytes")

/-- What is reported where decoding has to stop, by the code and the wording alone. -/
inductive StopReport : DiagnosticCode → String → Prop
  | outside : StopReport .outOfImage "Execution runs past the end of the segment"
  | undecodable (cause : DecodeError) : StopReport .invalidInstruction cause.message
  | overlap (i : Instruction) (text : String) (htext : i.text = .ok text) :
      StopReport .overlappingInstruction (text ++ " overlaps already classified bytes")
  | data : StopReport .ranIntoData "Execution runs into data"

/-- These are the codes that come up while a block is decoded. -/
theorem StopReport.code_mem {code : DiagnosticCode} {message : String}
    (h : StopReport code message) : code ∈ [DiagnosticCode.outOfImage, .invalidInstruction,
      .overlappingInstruction, .ranIntoData] := by
  cases h <;> decide

theorem Obstacle.stopReport {e : Explorer} {s : Session} {a : Address} {code : DiagnosticCode}
    {message : String} (h : Obstacle e s a code message) : StopReport code message := by
  cases h with
  | outside h => exact .outside
  | undecodable code cause hw hd => exact .undecodable cause
  | overlap i hi hknown text htext => exact .overlap i text htext

/-- The instruction at an address reaches into bytes that are known and cannot be named. -/
structure Unnamable (e : Explorer) (s : Session) (a : Address) (i : Instruction)
    (cause : Overflow) : Prop where
  decoded : e.image.instructionAt? e.context a = some i
  known : ¬ ∀ b, a.Spans i.length b → (s.bytes.get b).kind = .unknown
  text_eq : i.text = .error cause

/-- How decoding at most `budget` instructions from `start` on can end. In each case a fresh run has
    been decoded, all of it straight but for a last instruction that transfers control, and only in
    the last case it has not been taken over. All that is said of decoded blocks is read off from
    here. -/
inductive StretchOutcome (e : Explorer) (s : Session) (start : Address) (budget : Nat) :
    Except Overflow Stretch → Prop
  /-- The block is full. -/
  | full (is : List Instruction) (fresh : Fresh e s start is)
      (straight : ∀ i ∈ is, i.transfer? = none) (hlen : is.length = budget) :
      StretchOutcome e s start budget (.ok
        ⟨(s.takeRun start is).enqueue ⟨.fallThrough,
            (s.takeRun start is).previous (Run.stop start is), Run.stop start is, .nowhere⟩,
          Run.stop start is, .fallThrough⟩)
  /-- No further instruction can be taken over. -/
  | blocked (is : List Instruction) (fresh : Fresh e s start is)
      (straight : ∀ i ∈ is, i.transfer? = none) (hlen : is.length < budget)
      (code : DiagnosticCode) (message : String)
      (hobstacle : Obstacle e (s.takeRun start is) (Run.stop start is) code message) :
      StretchOutcome e s start budget (.ok
        ⟨(s.takeRun start is).report (Run.stop start is) code message, Run.stop start is, .broken⟩)
  /-- The next byte is already known to be data or filler. -/
  | data (is : List Instruction) (fresh : Fresh e s start is)
      (straight : ∀ i ∈ is, i.transfer? = none) (hlen : is.length ≤ budget) (hne : is ≠ [])
      (hkind : ((s.takeRun start is).bytes.get (Run.stop start is)).kind = .data
        ∨ ((s.takeRun start is).bytes.get (Run.stop start is)).kind = .padding) :
      StretchOutcome e s start budget (.ok
        ⟨(s.takeRun start is).report (Run.stop start is) .ranIntoData "Execution runs into data",
          Run.stop start is, .broken⟩)
  /-- The next byte is already known to be code. -/
  | met (is : List Instruction) (i : Instruction) (fresh : Fresh e s start (is ++ [i]))
      (straight : ∀ j ∈ is ++ [i], j.transfer? = none) (hlen : is.length < budget)
      (hkind : ((s.takeRun start (is ++ [i])).bytes.get (Run.stop start (is ++ [i]))).kind
        = .code) :
      StretchOutcome e s start budget (.ok
        ⟨(s.takeRun start (is ++ [i])).enqueue
            ⟨.fallThrough, Run.stop start is, Run.stop start (is ++ [i]), .nowhere⟩,
          Run.stop start (is ++ [i]), .fallThrough⟩)
  /-- The last instruction transfers control. -/
  | transferred (is : List Instruction) (i : Instruction) (t : Transfer)
      (fresh : Fresh e s start (is ++ [i])) (straight : ∀ j ∈ is, j.transfer? = none)
      (ht : i.transfer? = some t) (hlen : is.length < budget) :
      StretchOutcome e s start budget (.ok
        ⟨(s.takeRun start (is ++ [i])).emit (Run.stop start is) i t,
          Run.stop start (is ++ [i]), .ofTransfer t⟩)
  /-- An instruction overlaps something known, and cannot be named. -/
  | unnamed (is : List Instruction) (fresh : Fresh e s start is)
      (straight : ∀ i ∈ is, i.transfer? = none) (hlen : is.length < budget) (i : Instruction)
      (cause : Overflow)
      (hunnamable : Unnamable e (s.takeRun start is) (Run.stop start is) i cause) :
      StretchOutcome e s start budget (.error cause)

theorem fresh_nil (e : Explorer) (s : Session) (start : Address) : Fresh e s start [] where
  run := trivial
  unknown := fun a ha => absurd ha (Address.not_spans_zero start a)

/-- A fresh instruction in front of a run that is fresh once it has been taken over. -/
theorem fresh_cons {e : Explorer} {s : Session} {start : Address} {i : Instruction}
    {is : List Instruction} (hi : e.image.instructionAt? e.context start = some i)
    (hfree : ∀ a, start.Spans i.length a → (s.bytes.get a).kind = .unknown)
    (hrest : Fresh e (s.take start i) (i.next start) is) : Fresh e s start (i :: is) where
  run := ⟨hi, hrest.run⟩
  unknown := by
    intro a ha
    by_cases hfirst : start.Spans i.length a
    · exact hfree a hfirst
    · -- Bytes behind the first instruction are left alone by taking it over, so they were unknown
      -- before.
      have hbehind := ((Run.spans_cons_iff hi).mp ha).resolve_left hfirst
      have hunknown := hrest.unknown a hbehind
      rw [Session.take_get s hi, if_neg hfirst] at hunknown
      exact hunknown

/-- The check before an instruction is taken over, and the marking of its bytes. -/
theorem mark_of_fresh {e : Explorer} {s : Session} {a : Address} {i : Instruction}
    (hi : e.image.instructionAt? e.context a = some i) :
    (s.bytes.isUnknownBetween a (i.next a) ↔
        ∀ b, a.Spans i.length b → (s.bytes.get b).kind = .unknown)
      ∧ ((∀ b, a.Spans i.length b → (s.bytes.get b).kind = .unknown) →
        s.bytes.mark a (i.next a) .code = .ok (s.bytes.put a .code i.length)) := by
  rcases Image.instructionAt?_eq_some hi with ⟨hpos, h0, hend, -⟩
  exact ⟨s.bytes.isUnknownBetween_advance h0 (by omega),
    fun hfree => s.bytes.mark_advance h0 (by omega) hpos (by decide) hfree⟩

/-- A straight instruction goes in front of what is decoded from its end on. -/
theorem StretchOutcome.cons {e : Explorer} {s : Session} {start : Address} {budget : Nat}
    {i : Instruction} {outcome : Except Overflow Stretch}
    (hi : e.image.instructionAt? e.context start = some i)
    (hfree : ∀ a, start.Spans i.length a → (s.bytes.get a).kind = .unknown)
    (ht : i.transfer? = none)
    (h : StretchOutcome e (s.take start i) (i.next start) budget outcome) :
    StretchOutcome e s start (budget + 1) outcome := by
  -- All but the last instruction have to be straight, and the new one is.
  have hcons : ∀ is, (∀ j ∈ is, j.transfer? = none) → ∀ j ∈ i :: is, j.transfer? = none := by
    intro is hstraight j hj
    rcases List.mem_cons.mp hj with rfl | hj
    · exact ht
    · exact hstraight j hj
  cases h with
  | full is fresh straight hlen =>
      exact .full (i :: is) (fresh_cons hi hfree fresh) (hcons is straight)
        (by rw [List.length_cons, hlen])
  | blocked is fresh straight hlen code message hobstacle =>
      exact .blocked (i :: is) (fresh_cons hi hfree fresh) (hcons is straight)
        (Nat.succ_lt_succ hlen) code message hobstacle
  | data is fresh straight hlen hne hkind =>
      exact .data (i :: is) (fresh_cons hi hfree fresh) (hcons is straight)
        (Nat.succ_le_succ hlen) (List.cons_ne_nil i is) hkind
  | met is j fresh straight hlen hkind =>
      exact .met (i :: is) j (fresh_cons hi hfree fresh) (hcons _ straight)
        (Nat.succ_lt_succ hlen) hkind
  | transferred is j t fresh straight htj hlen =>
      exact .transferred (i :: is) j t (fresh_cons hi hfree fresh) (hcons is straight) htj
        (Nat.succ_lt_succ hlen)
  | unnamed is fresh straight hlen j cause hunnamable =>
      exact .unnamed (i :: is) (fresh_cons hi hfree fresh) (hcons is straight)
        (Nat.succ_lt_succ hlen) j cause hunnamable

/-- Decoding a stretch ends in one of the ways that `StretchOutcome` lists. The
    induction is on the budget; an instruction that is taken over goes in front of the
    run that is decoded from its end on, whichever way that ends. -/
theorem decodeStretch_outcome (e : Explorer) (budget : Nat) (start : Address) (s : Session) :
    StretchOutcome e s start budget (e.decodeStretch budget start s) := by
  induction budget generalizing start s with
  | zero => exact .full [] (fresh_nil e s start) (fun i hi => by cases hi) rfl
  | succ budget ih =>
      -- Where decoding stops at the first instruction, the run is empty.
      have hnil := fresh_nil e s start
      have hnone : ∀ i ∈ ([] : List Instruction), i.transfer? = none := fun i hi => by cases hi
      unfold Explorer.decodeStretch
      cases hw : e.image.window? start with
      | none => exact .blocked [] hnil hnone (Nat.succ_pos _) _ _ (.outside hw)
      | some code =>
          cases hd : decode e.context code with
          | error cause =>
              simp only [hd]
              exact .blocked [] hnil hnone (Nat.succ_pos _) _ _
                (.undecodable code cause hw hd)
          | ok i =>
              have hi : e.image.instructionAt? e.context start = some i :=
                Image.instructionAt?_eq_some_iff.mpr ⟨code, hw, hd⟩
              rcases mark_of_fresh (s := s) hi with ⟨hcheck, hmark⟩
              simp only [hd]
              by_cases hfree : ∀ a, start.Spans i.length a → (s.bytes.get a).kind = .unknown
              · rw [if_neg (by simp only [hcheck.mpr hfree, Bool.not_true, Bool.false_eq_true,
                  not_false_eq_true]), hmark hfree]
                have hone : Fresh e s start [i] := fresh_cons hi hfree (fresh_nil e _ _)
                cases ht : i.transfer? with
                | some t =>
                    simp only [Session.emit_index]
                    exact .transferred [] i t hone hnone ht (Nat.succ_pos _)
                | none =>
                    have hstraight : ∀ j ∈ [i], j.transfer? = none := by
                      intro j hj
                      rw [List.mem_singleton.mp hj]
                      exact ht
                    -- What comes next depends on the byte behind the instruction: unknown,
                    -- code, data or filler, in this order.
                    simp only []
                    split
                    · exact (ih (i.next start) (s.take start i)).cons hi hfree ht
                    · rename_i hkind
                      exact .met [] i hone hstraight (Nat.succ_pos _) hkind
                    · rename_i hkind
                      exact .data [i] hone hstraight (Nat.succ_le_succ (Nat.zero_le _))
                        (List.cons_ne_nil i []) (Or.inl hkind)
                    · rename_i hkind
                      exact .data [i] hone hstraight (Nat.succ_le_succ (Nat.zero_le _))
                        (List.cons_ne_nil i []) (Or.inr hkind)
              · -- The instruction overlaps something known, and is named if it has a text.
                rw [if_pos (by simpa using fun h => hfree (hcheck.mp h)), Explorer.reportOverlap]
                cases htext : i.text with
                | ok text =>
                    exact .blocked [] hnil hnone (Nat.succ_pos _) _ _
                      (.overlap i hi hfree text htext)
                | error cause =>
                    exact .unnamed [] hnil hnone (Nat.succ_pos _) i cause ⟨hi, hfree, htext⟩

end Disasm86
