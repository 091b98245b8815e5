import Disasm86.Proofs.Layout
import Mathlib.Data.List.Sort

/-!
# The Instructions of a Block

A block knows its bytes and not its instructions. To list these, one looks up the index for
all that starts between the two ends of the block. The proofs about blocks speak of the run
that fills a block instead, so the two have to be brought together: what the index lists
between the ends of a run is the run, each instruction with its address.

Both lists ascend, so it is enough to compare their members. An entry of the index that
starts inside the run is one of the run's, because instructions do not overlap.

## Main definitions

* `Run.entries`: The instructions of a run with their addresses.

## Theorems

* `CodeIndex.mem_inRange_iff`: What the index lists between two addresses.
* `BlockStore.WellFormed.mem_inRange_iff`: What it lists between the ends of a block.
* `Indexed.mem_entries_iff`: The entries of a run are those that start inside of it.
* `Indexed.inRange_eq_entries`: The index lists a run between its ends.
* `Filled.inRange_eq_entries`: The instructions of a block are the run that fills it.
-/

namespace Disasm86

/-- Entries of an index in the order of their addresses. -/
def Ascending (entries : List (Address × Instruction)) : Prop :=
  entries.Pairwise fun x y => compare x.1 y.1 = .lt

/-- Lists in ascending order are equal as soon as they have the same entries. All comparisons of
    listings below go this way. -/
theorem Ascending.eq_of_mem_iff {xs ys : List (Address × Instruction)} (hx : Ascending xs)
    (hy : Ascending ys) (hmem : ∀ a i, (a, i) ∈ xs ↔ (a, i) ∈ ys) : xs = ys := by
  have hirrefl : Std.Irrefl fun x y : Address × Instruction => compare x.1 y.1 = .lt :=
    ⟨fun x => by simp⟩
  have hantisymm : Std.Antisymm fun x y : Address × Instruction => compare x.1 y.1 = .lt :=
    ⟨fun x y hxy hyx => absurd hyx (Std.OrientedCmp.not_lt_of_lt hxy)⟩
  exact List.Pairwise.eq_of_mem_iff hx hy fun x => hmem x.1 x.2

namespace CodeIndex

variable (x : CodeIndex) (start stop : Address)

/-- A range of the index is a part of its list. -/
theorem inRange_eq : x.inRange start stop = x.toList.filter fun e =>
    decide ((compare e.1 start).isGE ∧ (compare e.1 stop).isLT) :=
  Std.TreeMap.toList_rco compare

theorem ascending_inRange : Ascending (x.inRange start stop) := by
  rw [inRange_eq]
  exact x.instructions.ordered_keys_toList.filter _

variable {x start stop} {a : Address} {i : Instruction}

/-- Between two addresses of a segment, the index lists what starts there. -/
theorem mem_inRange_iff (hseg : stop.segment = start.segment) :
    (a, i) ∈ x.inRange start stop ↔ x.get? a = some i ∧ a.segment = start.segment
      ∧ start.offset.toInt ≤ a.offset.toInt ∧ a.offset.toInt < stop.offset.toInt := by
  rw [inRange_eq, List.mem_filter, toList, Std.TreeMap.mem_toList_iff_getElem?_eq_some]
  simp only [decide_eq_true_eq, Std.OrientedCmp.isGE_iff_isLE, Ordering.isLT_iff_eq_lt]
  exact and_congr_right fun _ => Address.between_iff hseg

end CodeIndex

/-- The index lists the instructions of a block between the ends of the block, since these are not
    so far apart that the later one wraps around. -/
theorem BlockStore.WellFormed.mem_inRange_iff {blocks : BlockStore} {code : CodeIndex} {id : Nat}
    {b : Block} {a : Address} {i : Instruction} (wf : blocks.WellFormed)
    (hget : blocks.get? id = some b) :
    (a, i) ∈ code.inRange b.start b.stop ↔ code.get? a = some i ∧ b.contains a := by
  have hstop := Block.toInt_stop (wf.positive hget) (wf.bounded hget)
  have hsame : b.stop.segment = b.start.segment := rfl
  rw [CodeIndex.mem_inRange_iff hsame, Block.contains_iff, hstop]

namespace Run

/-- Instructions that stand one behind the other, with their addresses. -/
def entries (start : Address) : List Instruction → List (Address × Instruction)
  | [] => []
  | i :: is => (start, i) :: entries (i.next start) is

/-- The entries of the second part start where the first part stops. -/
theorem entries_append (start : Address) (is js : List Instruction) :
    entries start (is ++ js) = entries start is ++ entries (stop start is) js := by
  induction is generalizing start with
  | nil => rfl
  | cons i is ih => simp [entries, stop, ih]

theorem map_snd_entries (start : Address) (is : List Instruction) :
    (entries start is).map (·.2) = is := by
  induction is generalizing start with
  | nil => rfl
  | cons i is ih => simp [entries, ih]

end Run

namespace Indexed

variable {image : Image} {context : DecodeContext} {s : Session} {start a : Address}
  {is : List Instruction} {i : Instruction}

/-- The entries of a run are the entries of the index that start inside of it. Nothing else can
    start there, because instructions do not overlap. -/
theorem mem_entries_iff (h : Indexed image context s) (hrun : IsRun s.code.get? start is) :
    (a, i) ∈ Run.entries start is ↔ s.code.get? a = some i ∧ start.Spans (Run.size is) a := by
  constructor
  · intro hmem
    induction is generalizing start with
    | nil => cases hmem
    | cons j js ih =>
        have hsplit : start.Spans (Run.size (j :: js)) a
            ↔ start.Spans j.length a ∨ (j.next start).Spans (Run.size js) a :=
          Run.spans_cons_iff (h.decoded hrun.1)
        rcases List.mem_cons.mp hmem with heq | hmem
        · cases heq
          exact ⟨hrun.1, hsplit.mpr (Or.inl (h.spans_self hrun.1))⟩
        · rcases ih hrun.2 hmem with ⟨hi, hspan⟩
          exact ⟨hi, hsplit.mpr (Or.inr hspan)⟩
  · -- An instruction of the index inside the run is one that the run can be parted at.
    intro hin
    rcases h.exists_append hrun hin.2 hin.1 with ⟨front, back, rfl, hstop⟩
    rw [Run.entries_append, hstop]
    exact List.mem_append_right _ List.mem_cons_self

/-- The entries of a run are in ascending order, since each instruction has at least one byte. -/
theorem ascending_entries (h : Indexed image context s) (hrun : IsRun s.code.get? start is) :
    Ascending (Run.entries start is) := by
  induction is generalizing start with
  | nil => exact List.Pairwise.nil
  | cons j js ih =>
      refine List.pairwise_cons.mpr ⟨fun e he => ?_, ih hrun.2⟩
      -- All that follows starts behind the first instruction.
      have hspan := ((h.mem_entries_iff hrun.2).mp he).2
      have hnext := Image.toInt_next (h.decoded hrun.1)
      have hpos := (Image.instructionAt?_eq_some (h.decoded hrun.1)).1
      have hbehind := hspan.2.1
      have hseg : start.segment = e.1.segment := hspan.1.symm
      refine (Address.compare_eq_lt_iff_of_segment_eq hseg).mpr ?_
      omega

/-- Between the ends of a run, the index lists the run. -/
theorem inRange_eq_entries (h : Indexed image context s) (hrun : IsRun s.code.get? start is) :
    s.code.inRange start (Run.stop start is) = Run.entries start is := by
  refine (s.code.ascending_inRange _ _).eq_of_mem_iff (h.ascending_entries hrun) fun a i => ?_
  -- Both lists are in order, so their entries are compared.
  rw [CodeIndex.mem_inRange_iff (Run.stop_segment start is), h.mem_entries_iff hrun,
    Run.toInt_stop (h.isRun_image hrun)]
  rfl

end Indexed

/-- The instructions of a block are the run that fills it. -/
theorem Filled.inRange_eq_entries {image : Image} {context : DecodeContext} {s : Session}
    {b : Block} {is : List Instruction} {i : Instruction} (h : Filled s.code b is i)
    (hs : Indexed image context s) :
    s.code.inRange b.start b.stop = Run.entries b.start is ++ [(Run.stop b.start is, i)] := by
  rw [← h.stop_eq hs, hs.inRange_eq_entries h.run, Run.entries_append]
  rfl

end Disasm86
