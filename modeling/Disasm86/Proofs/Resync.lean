import Disasm86.Sweep

/-!
# Sweeping in Chunks

Sweeping a range chunk by chunk gives what one sweep of the whole gives.

A sweep is a walk whose next step depends on nothing but the offset where it stands.
So two walks that meet at an offset agree from there on, which is `filter_sweep`: what
a chunk has found from a common offset on is the sweep from that offset. And a sweep
can be interrupted anywhere and taken up behind its last instruction, which is
`sweep_append`. The bytes between the last instruction and the place of the
interruption are then looked at twice, and skipped twice.

Joining a chunk combines the two. `catchUp_ahead` says that what is decoded for a chunk
is the sweep up to its end, and `sweep_catchUp` that the sweep goes on from the offset
that catching up has left. That offset may still lie inside the chunk, or in front of
it, if nothing could be decoded at the end of the chunk. Then the next chunk skips
those bytes once more.

## Theorems

* `sweep_of_le`, `sweep_skip`, `sweep_found`: The steps of a sweep.
* `bounds_of_mem_sweep`: Where the instructions of a sweep start.
* `pairwise_sweep`: A sweep ascends.
* `sweep_append`: A sweep can be interrupted.
* `filter_sweep`: Sweeps that meet agree from there on.
* `catchUp_ahead`: A chunk is swept to its end.
* `sweep_catchUp`: The sweep goes on behind a chunk.
* `joinChunks_chunks`: Joined chunks are the sweep of the whole.
* `sweepChunked_eq_sweep`: Sweeping in chunks is sweeping.
-/

namespace Disasm86

variable {at? : Nat → Option Instruction} {start stop next mid : Nat} {i : Instruction}

/-- A sweep finds no instruction at an offset: none can be decoded, or one without
    bytes. -/
def Skips (at? : Nat → Option Instruction) (next : Nat) : Prop :=
  ∀ i, at? next = some i → i.length = 0

section Steps

/-- Where nothing decodes, a byte is skipped. -/
theorem skips_of_none (h : at? next = none) : Skips at? next := by
  intro i hi
  rw [h] at hi
  cases hi

/-- An instruction without bytes would keep the sweep where it is, so it is skipped as well. -/
theorem skips_of_empty (h : at? next = some i) (hzero : ¬ 0 < i.length) : Skips at? next := by
  intro j hj
  rw [h, Option.some.injEq] at hj
  rw [← hj]
  omega

theorem sweep_of_le (h : stop ≤ next) : sweep at? stop next = [] := by
  unfold sweep
  rw [if_neg (by omega)]

/-- Skipping a byte changes nothing about what is found. -/
theorem sweep_skip (hskips : Skips at? next) :
    sweep at? stop next = sweep at? stop (next + 1) := by
  by_cases hlt : next < stop
  · rw [sweep.eq_def at? stop next, if_pos hlt]
    cases hi : at? next with
    | none => rfl
    | some i => simp only [hskips i hi, Nat.lt_irrefl, if_false]
  · rw [sweep_of_le (by omega), sweep_of_le (by omega)]

/-- An instruction is found, and the sweep goes on behind it. -/
theorem sweep_found (hlt : next < stop) (hi : at? next = some i) (hpos : 0 < i.length) :
    sweep at? stop next = (next, i) :: sweep at? stop (next + i.length) := by
  rw [sweep.eq_def at? stop next, if_pos hlt]
  simp only [hi, hpos, if_true]

end Steps

/-- The instructions of a sweep start inside its range. -/
theorem bounds_of_mem_sweep {x : Nat × Instruction} (h : x ∈ sweep at? stop next) :
    next ≤ x.1 ∧ x.1 < stop := by
  fun_induction sweep at? stop next with
  | case1 next hlt hnone ih =>
      have hrest := ih h
      omega
  | case2 next hlt i hi hpos ih =>
      rcases List.mem_cons.mp h with rfl | h
      · exact ⟨Nat.le_refl _, hlt⟩
      · have hrest := ih h
        omega
  | case3 next hlt i hi hpos ih =>
      have hrest := ih h
      omega
  | case4 next hge => cases h

/-- The instructions of a sweep come in ascending order, and none twice. -/
theorem pairwise_sweep (at? : Nat → Option Instruction) (stop next : Nat) :
    (sweep at? stop next).Pairwise fun x y => x.1 < y.1 := by
  fun_induction sweep at? stop next with
  | case1 next hlt hnone ih => exact ih
  | case2 next hlt i hi hpos ih =>
      refine List.pairwise_cons.mpr ⟨fun y hy => ?_, ih⟩
      have hrest := (bounds_of_mem_sweep hy).1
      omega
  | case3 next hlt i hi hpos ih => exact ih
  | case4 next hge => exact List.Pairwise.nil

section Behind

/-- Only the last instruction decides where a sweep goes on. -/
theorem offsetBehind_cons (found : List (Nat × Instruction)) :
    offsetBehind next ((mid, i) :: found) = offsetBehind (mid + i.length) found := by
  unfold offsetBehind
  cases found with
  | nil => rfl
  | cons x found =>
      rw [List.getLast?_cons_cons, List.getLast?_cons, Option.elim_some, Option.elim_some]

/-- It makes no difference whether a sweep is taken up in front of a byte that it skips or
    behind it. -/
theorem sweep_offsetBehind_skip (hskips : Skips at? next) (found : List (Nat × Instruction)) :
    sweep at? stop (offsetBehind (next + 1) found) = sweep at? stop (offsetBehind next found) := by
  cases found with
  | nil => exact (sweep_skip hskips).symm
  | cons x found => rw [offsetBehind_cons, offsetBehind_cons]

/-- A sweep can be interrupted, and taken up behind the last instruction. -/
theorem sweep_append (hmid : mid ≤ stop) :
    sweep at? stop next
      = sweep at? mid next ++ sweep at? stop (offsetBehind next (sweep at? mid next)) := by
  fun_induction sweep at? mid next with
  | case1 next hlt hi ih =>
      have hskips := skips_of_none hi
      rw [sweep_skip hskips, ih, sweep_offsetBehind_skip hskips]
  | case2 next hlt i hi hpos ih =>
      -- Here the instruction may reach over the middle, which is why the rest goes on behind it and
      -- not at the middle.
      rw [sweep_found (by omega) hi hpos, ih, offsetBehind_cons, List.cons_append]
  | case3 next hlt i hi hzero ih =>
      have hskips := skips_of_empty hi hzero
      rw [sweep_skip hskips, ih, sweep_offsetBehind_skip hskips]
  | case4 next hge => rfl

end Behind

/-- Sweeps that meet agree from there on: behind an instruction that a sweep has found,
    it is the sweep from that instruction. -/
theorem filter_sweep (h : (next, i) ∈ sweep at? stop start) :
    (sweep at? stop start).filter (next ≤ ·.1) = sweep at? stop next := by
  fun_induction sweep at? stop start with
  | case1 start hlt hnone ih => exact ih h
  | case2 start hlt j hj hpos ih =>
      rcases List.mem_cons.mp h with heq | hrest
      · -- The sweep starts here, and all that it finds lies behind.
        cases heq
        rw [sweep_found hlt hj hpos, List.filter_eq_self]
        intro x hx
        rw [← sweep_found hlt hj hpos] at hx
        exact decide_eq_true (bounds_of_mem_sweep hx).1
      · have hbehind := (bounds_of_mem_sweep hrest).1
        have hfront : ¬ next ≤ start := by
          simp only at hbehind
          omega
        rw [List.filter_cons_of_neg (by simpa using hfront)]
        exact ih hrest
  | case3 start hlt j hj hzero ih => exact ih h
  | case4 start hge => cases h

section Chunks

/-- From an offset at which a chunk has found an instruction, the chunk is the sweep. -/
theorem filter_sweep_of_any (h : (sweep at? stop start).any (·.1 == next)) :
    (sweep at? stop start).filter (next ≤ ·.1) = sweep at? stop next := by
  rcases List.any_eq_true.mp h with ⟨⟨offset, i⟩, hmem, hoffset⟩
  cases eq_of_beq hoffset
  exact filter_sweep hmem

/-- What is decoded for a chunk is the sweep up to its end, wherever the chunk itself has
    started. -/
theorem catchUp_ahead (at? : Nat → Option Instruction) (start stop next : Nat) :
    (catchUp at? stop (sweep at? stop start) next).1 = sweep at? stop next := by
  fun_induction catchUp at? stop (sweep at? stop start) next with
  -- Once in step the rest of the chunk is taken over, and before that it is decoded again.
  | case1 next hlt hany => exact filter_sweep_of_any hany
  | case2 next hlt hany hi ih => rw [ih, sweep_skip (skips_of_none hi)]
  | case3 next hlt hany i hi hpos ahead behind heq ih =>
      rw [sweep_found hlt hi hpos, ← ih, heq]
  | case4 next hlt hany i hi hzero ih => rw [ih, sweep_skip (skips_of_empty hi hzero)]
  | case5 next hge => exact (sweep_of_le (by omega)).symm

/-- The sweep goes on from where catching up with a chunk has left it. -/
theorem sweep_catchUp (at? : Nat → Option Instruction) (start next : Nat) (hmid : mid ≤ stop) :
    sweep at? stop next = (catchUp at? mid (sweep at? mid start) next).1
      ++ sweep at? stop (catchUp at? mid (sweep at? mid start) next).2 := by
  fun_induction catchUp at? mid (sweep at? mid start) next with
  | case1 next hlt hany =>
      rw [filter_sweep_of_any hany]
      exact sweep_append hmid
  | case2 next hlt hany hi ih => rw [sweep_skip (skips_of_none hi), ih]
  | case3 next hlt hany i hi hpos ahead behind heq ih =>
      rw [heq] at ih
      rw [sweep_found (by omega) hi hpos, ih, List.cons_append]
  | case4 next hlt hany i hi hzero ih => rw [sweep_skip (skips_of_empty hi hzero), ih]
  | case5 next hge => rfl

/-- Joining the chunks of a range gives the sweep to its end from any offset, if nothing
    is left to find where there are no chunks. -/
theorem joinChunks_chunks {size : Nat} (hsize : 0 < size)
    (hdone : stop ≤ start → sweep at? stop next = []) :
    joinChunks at? next (chunks size start stop) = sweep at? stop next := by
  fun_induction chunks size start stop generalizing next with
  | case1 start hlt ih =>
      have hmid : min (start + size) stop ≤ stop := Nat.min_le_right _ _
      have hahead := catchUp_ahead at? start (min (start + size) stop) next
      have hgoesOn := sweep_catchUp at? start next hmid
      unfold joinChunks
      generalize catchUp at? (min (start + size) stop)
        (sweep at? (min (start + size) stop) start) next = joined at *
      rcases joined with ⟨ahead, behind⟩
      -- The rest of the chunks is joined from where this one has left the sweep.
      have hrest : joinChunks at? behind (chunks size (start + size) stop)
          = sweep at? stop behind := by
        refine ih fun hlast => ?_
        -- The last chunk ends where the range ends, so it has found all there is.
        rw [Nat.min_eq_right hlast] at hahead
        rw [← hahead] at hgoesOn
        exact List.self_eq_append_right.mp hgoesOn
      simp only [hrest, hgoesOn]
  | case2 start hnone =>
      rw [hdone (by omega)]
      rfl

end Chunks

/-- Sweeping in chunks gives the instructions of one sweep, in ascending order. In particular the
    instructions of a segment are those of one sweep of the segment. A chunk may start inside an
    instruction and find other ones for a while; joining decodes again until both are in step, and
    if they never are, up to the end of the chunk. -/
theorem sweepChunked_eq_sweep (at? : Nat → Option Instruction) (start stop : Nat) {size : Nat}
    (hsize : 0 < size) :
    sweepChunked at? size start stop = sweep at? stop start
      ∧ (sweepChunked at? size start stop).Pairwise (fun x y => x.1 < y.1)
      ∧ ∀ image context number, sweepSegment image context number start stop
        = (sweep (fun offset => image.instructionAt? context ⟨number, Int32.ofNat offset⟩) stop
            start).map fun x => (⟨number, Int32.ofNat x.1⟩, x.2) := by
  have hjoin : ∀ at? size, 0 < size → sweepChunked at? size start stop = sweep at? stop start :=
    fun at? size hsize => joinChunks_chunks hsize sweep_of_le
  refine ⟨hjoin at? size hsize, ?_, fun image context number => ?_⟩
  · rw [hjoin at? size hsize]
    exact pairwise_sweep at? stop start
  · simp only [sweepSegment, hjoin _ chunkSize (by decide)]

/-- Three instructions of three bytes, and then bytes that make none. -/
def outOfStep : Image := Image.ofBytes #[0xB8, 0x34, 0x12, 0xB8, 0x0F, 0x64, 0xB8, 0x34, 0x12,
  0x0F, 0x0F, 0x0F] 0

/-- In chunks of four bytes, the last chunk starts inside the last instruction. Swept on
    its own it finds something else there, and it never gets in step. -/
theorem sweepChunked_outOfStep :
    (sweep (fun offset => outOfStep.instructionAt? {} ⟨0, Int32.ofNat offset⟩) 12 8).map (·.1) = [8]
      ∧ (sweepChunked (fun offset => outOfStep.instructionAt? {} ⟨0, Int32.ofNat offset⟩) 4 0
          12).map (·.1) = [0, 3, 6]
      ∧ sweepChunked (fun offset => outOfStep.instructionAt? {} ⟨0, Int32.ofNat offset⟩) 4 0 12
        = sweep (fun offset => outOfStep.instructionAt? {} ⟨0, Int32.ofNat offset⟩) 12 0 :=
  ⟨by decide +kernel, by decide +kernel, (sweepChunked_eq_sweep _ 0 12 (by decide)).1⟩

end Disasm86
