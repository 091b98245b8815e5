import Disasm86.Proofs.Indexed
import Disasm86.Proofs.Partition

/-!
# The Layout of Blocks

The second half of what ties the stores of a session together: blocks cover the bytes
of code and nothing else, and each of them is filled by a run of indexed instructions.

A block is described by the run that fills it, with the last instruction apart from
the others. The last is the only one that may transfer control. When a block is cut,
the run is parted in front of the instruction at the cut, and what was an inner
instruction becomes the last one of the first part.

Blocks come into being in two ways, and both are described here as changes of the
stores alone. `LaidOut.close` puts a block around a run that has been taken over, and
`LaidOut.cut` cuts one. Neither asks how exploring came to do so.

## Main definitions

* `Filled`: A run of indexed instructions fills a block.
* `LaidOut`: Byte map, index and blocks of a session fit each other and the image.
* `Run.block`: The block around a run.

## Theorems

* `Filled.cut`: The two parts of a block are filled by the two parts of its run.
* `Filled.mem_of_ne_last`: The inner instructions of a block.
* `Filled.stop_eq`: A block ends where its run ends.
* `LaidOut.kind_eq_code_iff`: The bytes of code are those of the blocks.
* `LaidOut.of_bytes`: Marking unknown bytes as something else than code does no harm.
* `LaidOut.close`: A block around a fresh run keeps the stores laid out.
* `LaidOut.cut`: Cutting a block at an instruction keeps the stores laid out.
-/

namespace Disasm86

/-- The instructions `is` and then `i` fill the block `b`, and only `i` may transfer control. The
    last instruction is named apart because it decides where the block leads. -/
structure Filled (code : CodeIndex) (b : Block) (is : List Instruction) (i : Instruction) :
    Prop where
  run : IsRun code.get? b.start (is ++ [i])
  size : b.length.toInt = Run.size (is ++ [i])
  straight : ∀ j ∈ is, j.transfer? = none

/-- The stores of a session fit each other: the bytes of code are those of the indexed instructions,
    and the blocks are filled by them and leave none out. Every step of exploring keeps this, and
    almost everything that is proved of sessions starts from it. -/
structure LaidOut (image : Image) (context : DecodeContext) (s : Session) : Prop
    extends Indexed image context s where
  wellFormed : s.blocks.WellFormed
  filled : ∀ {id b}, s.blocks.get? id = some b → ∃ is i, Filled s.code b is i
  enclosed : ∀ {a}, (s.bytes.get a).kind = .code →
    ∃ id b, s.blocks.get? id = some b ∧ b.contains a

/-- The block around instructions that stand one behind the other. -/
def Run.block (start : Address) (is : List Instruction) (kind : BlockKind) : Block :=
  ⟨start, Int32.ofNat (Run.size is), kind⟩

section RunBlock

variable {image : Image} {context : DecodeContext} {start a : Address} {is : List Instruction}

/-- A run of an image is short enough for its length to be kept in 32 bits. -/
theorem Run.toInt_block_length (h : IsRun (image.instructionAt? context) start is)
    (hne : is ≠ []) (kind : BlockKind) :
    (Run.block start is kind).length.toInt = Run.size is := by
  rcases Run.bounds h hne with ⟨h0, hend, -⟩
  exact Int32.toInt_ofNat_of_lt (by omega)

/-- The block around a run has the bytes of the run. -/
theorem Run.contains_block (h : IsRun (image.instructionAt? context) start is)
    (hne : is ≠ []) (kind : BlockKind) :
    (Run.block start is kind).contains a ↔ start.Spans (Run.size is) a := by
  rw [Block.contains_iff, Run.toInt_block_length h hne]
  rfl

/-- The block around a run ends where the run does. -/
theorem Run.stop_block (h : IsRun (image.instructionAt? context) start is) (hne : is ≠ [])
    (kind : BlockKind) : (Run.block start is kind).stop = Run.stop start is := by
  rcases Run.bounds h hne with ⟨-, hend, hpos⟩
  have hlength := Run.toInt_block_length h hne kind
  have hstart : (Run.block start is kind).start = start := rfl
  refine Address.eq_of_offset_eq (Run.stop_segment start is).symm ?_
  rw [Block.toInt_stop (by omega) (by rw [hstart]; omega), hstart, hlength, Run.toInt_stop h]

end RunBlock

namespace Filled

variable {image : Image} {context : DecodeContext} {s : Session} {b : Block} {a : Address}
  {is : List Instruction} {i j : Instruction}

/-- A block has the bytes of the run that fills it. -/
theorem contains_iff (h : Filled s.code b is i) :
    b.contains a ↔ b.start.Spans (Run.size (is ++ [i])) a := by
  rw [Block.contains_iff, h.size]
  rfl

/-- A block that is cut at one of its inner instructions is parted into two runs. The
    instruction in front of the cut is straight, and the last one stays the last. -/
theorem cut (h : Filled s.code b is i) (hs : Indexed image context s)
    (ha : s.code.get? a = some j) (hin : b.contains a) (hne : b.start ≠ a) :
    ∃ front p back, is = front ++ p :: back ∧ Run.stop b.start (front ++ [p]) = a
      ∧ Filled s.code (b.headBefore a) front p ∧ Filled s.code (b.tailFrom a) back i := by
  rcases hs.exists_append h.run (h.contains_iff.mp hin) ha with ⟨head, tail, hsplit, hstop⟩
  -- The part before the cut has a last instruction, and the part behind keeps that of all.
  rcases List.eq_nil_or_concat head with rfl | ⟨front, p, rfl⟩
  · exact absurd hstop hne
  · rw [List.concat_eq_append] at hsplit hstop
    rcases List.eq_nil_or_concat (j :: tail) with hnil | ⟨back, last, hback⟩
    · cases hnil
    · rw [hback, List.concat_eq_append, ← List.append_assoc] at hsplit
      rcases List.append_inj' hsplit rfl with ⟨his, hlast⟩
      cases hlast
      have hwhole : is ++ [i] = (front ++ [p]) ++ (back ++ [i]) := by
        rw [his, List.append_assoc]
      -- Both parts are runs, one up to the cut and one from there on.
      have hruns := h.run
      rw [hwhole, isRun_append, hstop] at hruns
      have hfront := Run.toInt_stop (hs.isRun_image hruns.1)
      rw [hstop] at hfront
      have hsize := h.size
      rw [hwhole, Run.size_append] at hsize
      rcases Block.toInt_length_parts hin hne with ⟨hhead, htail, -⟩
      -- Of the inner instructions none is lost but the one in front of the cut, which is now a last
      -- one.
      have hmem : ∀ k, k ∈ front ∨ k ∈ back → k.transfer? = none := by
        intro k hk
        refine h.straight k ?_
        rw [his, List.mem_append, List.mem_append]
        rcases hk with hk | hk
        · exact Or.inl (Or.inl hk)
        · exact Or.inr hk
      refine ⟨front, p, back, ?_, hstop, ?_, ?_⟩
      · rw [his, List.append_assoc, List.singleton_append]
      · exact ⟨hruns.1, by omega, fun k hk => hmem k (Or.inl hk)⟩
      · exact ⟨hruns.2, by omega, fun k hk => hmem k (Or.inr hk)⟩

/-- An instruction of the block that is not the last is one of the inner ones. -/
theorem mem_of_ne_last (h : Filled s.code b is i) (hs : Indexed image context s)
    (hin : b.contains a) (ha : s.code.get? a = some j) (hne : a ≠ Run.stop b.start is) :
    j ∈ is := by
  rcases hs.exists_append h.run (h.contains_iff.mp hin) ha with ⟨front, back, hsplit, hfront⟩
  rcases List.eq_nil_or_concat back with rfl | ⟨inner, last, rfl⟩
  · -- Nothing follows the instruction, so it is the last.
    have hfi := (List.append_inj' hsplit rfl).1
    rw [← hfi] at hfront
    exact absurd hfront.symm hne
  · rw [List.concat_eq_append, ← List.cons_append, ← List.append_assoc] at hsplit
    rw [(List.append_inj' hsplit rfl).1]
    exact List.mem_append_right front List.mem_cons_self

/-- A block ends where the run that fills it ends. -/
theorem stop_eq (h : Filled s.code b is i) (hs : Indexed image context s) :
    Run.stop b.start (is ++ [i]) = b.stop := by
  have hrun := hs.isRun_image h.run
  have hne : is ++ [i] ≠ [] := by simp
  rcases Run.bounds hrun hne with ⟨h0, hend, -⟩
  have hsize := h.size
  refine Address.eq_of_offset_eq (Run.stop_segment b.start _) ?_
  rw [Run.toInt_stop hrun, Block.stop, Address.offsetBy, Int32.toInt_add,
    Int.bmod_eq_of_le (by omega) (by omega), hsize]

/-- An index that has more is filled by the same run. -/
theorem imp {code' : CodeIndex} (h : Filled s.code b is i)
    (himp : ∀ c k, s.code.get? c = some k → code'.get? c = some k) : Filled code' b is i :=
  ⟨h.run.imp himp, h.size, h.straight⟩

end Filled

namespace LaidOut

variable {image : Image} {context : DecodeContext} {s s' : Session} {a start : Address}
  {is : List Instruction} {i j : Instruction} {id : Nat} {b whole : Block}

/-- The bytes of code are those that the blocks cover. -/
theorem kind_eq_code_iff (h : LaidOut image context s) :
    (s.bytes.get a).kind = .code ↔ ∃ id b, s.blocks.get? id = some b ∧ b.contains a := by
  constructor
  · exact h.enclosed
  · intro hblock
    rcases hblock with ⟨id, b, hget, hin⟩
    rcases h.filled hget with ⟨is, i, hfill⟩
    exact h.kind_of_run hfill.run (hfill.contains_iff.mp hin)

/-- Nothing is code, and there are no blocks. -/
theorem fresh : LaidOut image context .fresh where
  toIndexed := Indexed.fresh
  wellFormed := BlockStore.wellFormed_empty
  filled := by
    intro id b hget
    simp [Session.fresh, BlockStore.get?] at hget
  enclosed := by
    intro a ha
    rw [show Session.fresh.bytes = ByteMap.empty from rfl, ByteMap.get_empty] at ha
    cases ha

/-- Nothing changes for bytes that were unknown and have become something else than
    code. -/
theorem of_bytes (h : LaidOut image context s) (hcode : s'.code = s.code)
    (hblocks : s'.blocks = s.blocks)
    (hbytes : ∀ a, s'.bytes.get a = s.bytes.get a
      ∨ (s.bytes.get a).kind = .unknown ∧ (s'.bytes.get a).kind ≠ .code) :
    LaidOut image context s' where
  toIndexed := h.toIndexed.of_bytes hcode hbytes
  wellFormed := by
    rw [hblocks]
    exact h.wellFormed
  filled := by
    rw [hblocks, hcode]
    exact h.filled
  enclosed := by
    intro a ha
    rw [hblocks]
    rcases hbytes a with heq | ⟨-, hnot⟩
    · rw [heq] at ha
      exact h.enclosed ha
    · exact absurd ha hnot

theorem congr (h : LaidOut image context s) (hbytes : s'.bytes = s.bytes)
    (hcode : s'.code = s.code) (hblocks : s'.blocks = s.blocks) : LaidOut image context s' :=
  h.of_bytes hcode hblocks fun a => Or.inl (by rw [hbytes])

/-- No block covers a byte of a fresh run. -/
theorem not_spans_of_fresh {e : Explorer} (h : LaidOut e.image e.context s)
    (hrun : Fresh e s start is) (hget : s.blocks.get? id = some b) (hin : b.contains a) :
    ¬ start.Spans (Run.size is) a := by
  intro hspan
  have hcode := h.kind_eq_code_iff.mpr ⟨id, b, hget, hin⟩
  rw [hrun.unknown a hspan] at hcode
  cases hcode

/-- A block is put around a fresh run that has been taken over. -/
theorem close {e : Explorer} (h : LaidOut e.image e.context s)
    (hrun : Fresh e s start (is ++ [i])) (hstraight : ∀ j ∈ is, j.transfer? = none)
    (kind : BlockKind) (hbytes : s'.bytes = (s.takeRun start (is ++ [i])).bytes)
    (hcode : s'.code = (s.takeRun start (is ++ [i])).code)
    (hblocks : s'.blocks = s.blocks.push (Run.block start (is ++ [i]) kind)) :
    LaidOut e.image e.context s' := by
  have hne : is ++ [i] ≠ [] := by simp
  have hlength := Run.toInt_block_length hrun.run hne kind
  have hcontains : ∀ a, (Run.block start (is ++ [i]) kind).contains a ↔
      start.Spans (Run.size (is ++ [i])) a := fun a => Run.contains_block hrun.run hne kind
  rcases Run.bounds hrun.run hne with ⟨h0, hend, hpos⟩
  have hindexed : Indexed e.image e.context s' :=
    (h.toIndexed.takeRun hrun).of_bytes hcode fun a => Or.inl (by rw [hbytes])
  have hstays : ∀ c k, s.code.get? c = some k → s'.code.get? c = some k := by
    intro c k hk
    rw [hcode]
    exact h.get?_takeRun hrun hk
  -- The block is new to the store because its bytes were unknown, it is filled by the run, and what
  -- has become code lies in it.
  refine ⟨hindexed, ?_, ?_, ?_⟩
  · rw [hblocks]
    refine h.wellFormed.push (by omega) ?_ ?_
    · rw [hlength]
      exact Int.lt_of_le_of_lt hend (by decide)
    · intro id c a hget hin hnew
      exact h.not_spans_of_fresh hrun hget hin ((hcontains a).mp hnew)
  · intro id b hget
    rw [hblocks] at hget
    rcases BlockStore.get?_push_cases hget with ⟨-, rfl⟩ | hold
    · refine ⟨is, i, ?_, hlength, hstraight⟩
      rw [hcode]
      exact Session.isRun_takeRun s hrun.run
    · rcases h.filled hold with ⟨js, j, hfill⟩
      exact ⟨js, j, hfill.imp hstays⟩
  · intro a ha
    rw [hblocks]
    by_cases hspan : start.Spans (Run.size (is ++ [i])) a
    · exact ⟨s.blocks.size, _, BlockStore.get?_push_self, (hcontains a).mpr hspan⟩
    · rw [hbytes, Session.takeRun_get_outside s hrun.run hspan] at ha
      rcases h.enclosed ha with ⟨id, b, hget, hin⟩
      exact ⟨id, b, BlockStore.get?_push_of_get? hget, hin⟩

/-- A block is cut at an instruction inside of it. -/
theorem cut (h : LaidOut image context s) (hget : s.blocks.get? id = some whole)
    (hin : whole.contains a) (ha : s.code.get? a = some j) (hne : whole.start ≠ a) :
    LaidOut image context { s with blocks := s.blocks.cut id whole a } where
  decoded := h.decoded
  marked := h.marked
  covered := h.covered
  wellFormed := h.wellFormed.cut hget hin hne
  filled := by
    intro k b hb
    -- The run of the block that is cut is parted, and the other blocks keep theirs.
    rcases h.filled hget with ⟨is, i, hfill⟩
    rcases hfill.cut h.toIndexed ha hin hne with ⟨front, p, back, -, -, hhead, htail⟩
    rcases BlockStore.get?_cut_cases hget hb with ⟨-, rfl⟩ | ⟨-, rfl⟩ | ⟨-, -, hold⟩
    · exact ⟨back, i, htail⟩
    · exact ⟨front, p, hhead⟩
    · exact h.filled hold
  enclosed := by
    intro c hc
    rcases h.enclosed hc with ⟨k, b, hb, hbin⟩
    rcases BlockStore.exists_contains_cut hget hin hne hb hbin with ⟨k', b', hb', hin', -⟩
    exact ⟨k', b', hb', hin'⟩

end LaidOut

end Disasm86
