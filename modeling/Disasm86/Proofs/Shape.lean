import Disasm86.Proofs.Contents
import Disasm86.Proofs.Tiling

/-!
# The Shape of Blocks

A block holds at least one instruction and not more than the limit allows, control leaves
it behind its last instruction only, and its kind tells how.

The kind is chosen when a block is closed, and the block may be cut later, again and again.
The tail keeps the last instruction and the kind of the whole block. The head ends in what
was an inner instruction, which does not transfer control, and it becomes a block that falls
through, whatever the whole block was. So a cut keeps what `Shaped` says, and so does the
limit, since both parts are shorter.

All calls have the same limits here. A block that was closed under one limit would not have
to respect a smaller one of a later call.

## Main definitions

* `BlockKind.Fits`: Whether a kind may belong to a block that ends in a given way.
* `Shaped`: A short run fills a block and ends as the kind says.

## Theorems

* `Shaped.cut`: Both parts of a block are shaped.
* `Visited.shaped`, `Followed.shaped`: Following a reference keeps blocks shaped.
* `Explored.block_shape`: The shape of the blocks of an explored session.
-/

namespace Disasm86

/-- The kinds of the blocks whose last instruction transfers control in this way, or does
    not transfer it. -/
def BlockKind.Fits (kind : BlockKind) : Option Transfer → Prop
  | some t => kind = .ofTransfer t
  | none => kind = .fallThrough ∨ kind = .broken

/-- The kinds of transfers are not those of blocks that run on or break off. -/
theorem BlockKind.ofTransfer_ne (t : Transfer) :
    ofTransfer t ≠ .fallThrough ∧ ofTransfer t ≠ .broken := by
  cases t <;> decide

/-- Fewer than `limit` instructions and then `i` fill the block, whose kind fits `i`. -/
structure Shaped (code : CodeIndex) (limit : Nat) (b : Block) (is : List Instruction)
    (i : Instruction) : Prop extends Filled code b is i where
  few : is.length < limit
  fits : b.kind.Fits i.transfer?

/-- Every block of the session is shaped. -/
def Session.IsShaped (limit : Nat) (s : Session) : Prop :=
  ∀ id b, s.blocks.get? id = some b → ∃ is i, Shaped s.code limit b is i

section Steps

variable {image : Image} {context : DecodeContext} {e : Explorer} {s s' : Session}
  {r : Reference} {b : Block} {a : Address} {is : List Instruction} {i j : Instruction}
  {limit : Nat} {kind : BlockKind}

/-- Both parts of a block are shaped again. Neither is longer than the block, and the tail ends
    where the block did. -/
theorem Shaped.cut (h : Shaped s.code limit b is i) (hs : Indexed image context s)
    (ha : s.code.get? a = some j) (hin : b.contains a) (hne : b.start ≠ a) :
    (∃ front p, Shaped s.code limit (b.headBefore a) front p)
      ∧ ∃ back, Shaped s.code limit (b.tailFrom a) back i := by
  rcases h.toFilled.cut hs ha hin hne with ⟨front, p, back, his, -, hhead, htail⟩
  have hlen : is.length = front.length + (back.length + 1) := by
    rw [his, List.length_append, List.length_cons]
  have hfew := h.few
  constructor
  · -- The head ends in an inner instruction of the whole block.
    have hp : p.transfer? = none := by
      refine h.straight p ?_
      rw [his]
      exact List.mem_append_right front List.mem_cons_self
    refine ⟨front, p, hhead, by omega, ?_⟩
    rw [hp]
    exact Or.inl rfl
  · exact ⟨back, htail, by omega, h.fits⟩

/-- The kind that a block is closed with fits its last instruction: a transfer decides it, and
    without one the block has run on or broken off. -/
theorem Ending.fits (h : Ending s a is i kind s') : kind.Fits i.transfer? := by
  cases h with
  | ranOn ht =>
      rw [ht]
      exact Or.inl rfl
  | brokeOff ht code message hreport =>
      rw [ht]
      exact Or.inr rfl
  | transferred t ht =>
      rw [ht]
      rfl

theorem Session.IsShaped.congr (h : s.IsShaped limit) (hcode : s'.code = s.code)
    (hblocks : s'.blocks = s.blocks) : s'.IsShaped limit := by
  intro id b hget
  rw [hblocks] at hget
  rw [hcode]
  exact h id b hget

/-- A visit may cut one block or close a new one. What it does otherwise leaves the blocks alone. -/
theorem Visited.shaped (hs : LaidOut e.image e.context s)
    (h : s.IsShaped e.limits.blockInstructions) (hv : Visited e s r s') :
    s'.IsShaped e.limits.blockInstructions := by
  cases hv with
  | misdirected code what h' => exact h.congr rfl rfl
  | known id h' => exact h
  | cut id whole j last i hget hin hj hne hi hnext hlast straight =>
      intro k b hb
      simp only [Session.record_stores] at hb ⊢
      rcases h id whole hget with ⟨is, l, hwhole⟩
      rcases hwhole.cut hs.toIndexed hj hin hne with ⟨hhead, back, htail⟩
      -- A block afterwards is the tail, the head, or one that was there before.
      rcases BlockStore.get?_cut_cases hget hb with ⟨-, rfl⟩ | ⟨-, rfl⟩ | ⟨-, -, hold⟩
      · exact ⟨back, l, htail⟩
      · exact hhead
      · exact h k b hold
  | stuck code message h' => exact h.congr rfl rfl
  | decoded is i kind s' fresh straight hlen hending =>
      rcases hending.stores with ⟨-, hcode, hblocks⟩
      intro k b hb
      simp only [Session.close_stores, hcode, hblocks] at hb ⊢
      -- A block afterwards is the new one, or one that was there before.
      rcases BlockStore.get?_push_cases hb with ⟨-, rfl⟩ | hold
      · have hne : is ++ [i] ≠ [] := by simp
        rw [List.length_append, List.length_singleton] at hlen
        exact ⟨is, i, ⟨Session.isRun_takeRun s fresh.run,
          Run.toInt_block_length fresh.run hne kind, straight⟩, hlen, hending.fits⟩
      · -- Taking a run over takes nothing out of the index.
        rcases h k b hold with ⟨js, j, hj⟩
        exact ⟨js, j, hj.toFilled.imp fun c k hk => hs.get?_takeRun fresh hk, hj.few, hj.fits⟩

/-- Slots and dynamic references touch no block, so all is up to the visits. -/
theorem Followed.shaped (hs : LaidOut e.image e.context s)
    (h : s.IsShaped e.limits.blockInstructions) (hf : Followed e s r s') :
    s'.IsShaped e.limits.blockInstructions := by
  cases hf with
  | slot hprobe s' hr =>
      cases hr with
      | refused => exact h
      | accepted word hword hlimit hfree hin hlanding hself => exact h.congr rfl rfl
  | dynamic hprobe htarget =>
      refine h.congr ?_ ?_ <;> simp only [Session.record_stores] <;> rfl
  | visited htarget s' hv =>
      refine (hv.shaped hs h).congr ?_ ?_ <;> simp only [Session.record_stores]

end Steps

section Sessions

variable {image : Image} {context : DecodeContext} {limits : Limits} {s : Session}

/-- By induction on the session, together with its layout, which cutting blocks relies on. -/
theorem Explored.isShaped (hlimit : 1 ≤ limits.blockInstructions)
    (h : Explored image context (fun l => l = limits) s) :
    LaidOut image context s ∧ s.IsShaped limits.blockInstructions := by
  refine h.keeps_laidOut (P := fun s => s.IsShaped limits.blockInstructions) ?_ ?_ ?_ ?_
  · rintro l rfl
    exact hlimit
  · intro id b hget
    simp [Session.fresh, BlockStore.get?] at hget
  · intro s entry kind hs hsome
    exact hs.congr rfl rfl
  · rintro s l r queue s' hs rfl hpop hlaid hf
    exact hf.shaped hlaid (hs.congr rfl rfl)

/-- The instructions of a block are between one and as many as the limit allows. All but the last go
    straight on, and the kind of the block is that of the transfer in which the last one ends, if it
    ends in one. A cut keeps this, since the part in front of it runs on. -/
theorem Explored.block_shape (hlimit : 1 ≤ limits.blockInstructions)
    (h : Explored image context (fun l => l = limits) s) {id : Nat} {b : Block}
    (hget : s.blocks.get? id = some b) :
    ∃ inner last, s.code.inRange b.start b.stop = inner ++ [last]
      ∧ (inner ++ [last]).length ≤ limits.blockInstructions
      ∧ (∀ entry ∈ inner, entry.2.endsBlock = false)
      ∧ (∀ kind ∈ [BlockKind.jump, .branch, .call, .ret, .halt],
          b.kind = kind ↔ ∃ t, last.2.transfer? = some t ∧ .ofTransfer t = kind)
      ∧ (b.kind = .fallThrough ∨ b.kind = .broken ↔ last.2.endsBlock = false) := by
  rcases h.isShaped hlimit with ⟨hlaid, hshaped⟩
  rcases hshaped id b hget with ⟨is, i, hb⟩
  have hfits := hb.fits
  -- What fills the block is also what the index has in its range, so all can be read off the run.
  refine ⟨Run.entries b.start is, (Run.stop b.start is, i),
    hb.toFilled.inRange_eq_entries hlaid.toIndexed, ?_, ?_, ?_, ?_⟩
  · have hlength := congrArg List.length (Run.map_snd_entries b.start is)
    have hfew := hb.few
    simp only [List.length_map] at hlength
    rw [List.length_append, List.length_singleton]
    omega
  · intro entry hentry
    have hmem : entry.2 ∈ is := by
      rw [← Run.map_snd_entries b.start is]
      exact List.mem_map_of_mem hentry
    rw [Instruction.endsBlock, hb.straight _ hmem]
    rfl
  · intro kind hkind
    cases ht : i.transfer? with
    | some t =>
        rw [ht] at hfits
        simp [show b.kind = .ofTransfer t from hfits]
    | none =>
        -- A block that runs on or breaks off has none of the listed kinds.
        rw [ht] at hfits
        refine iff_of_false ?_ (by simp)
        rintro rfl
        rcases hfits with hk | hk <;> simp [hk] at hkind
  · rw [Instruction.endsBlock]
    cases ht : i.transfer? with
    | some t =>
        rw [ht] at hfits
        rw [show b.kind = .ofTransfer t from hfits]
        simp [BlockKind.ofTransfer_ne t]
    | none =>
        rw [ht] at hfits
        exact iff_of_true hfits rfl

end Sessions

/-- Blocks of at most two instructions: the jump of `jumpBack` has a block of its own, and
    cuts the full block in front of it. -/
theorem block_shape_jumpBack :
    ∃ s, Explorer.analyze ⟨jumpBack, {}, { blockInstructions := 2 }⟩ (fun _ => false)
        ⟨0, 0⟩ .entry .fresh = .ok (s, .ok ())
      ∧ s.blocks.get? 0 = some ⟨⟨0, 0⟩, 1, .fallThrough⟩
      ∧ ∃ b, s.blocks.get? 1 = some b ∧ b.kind = .jump
        ∧ ∃ inner last, s.code.inRange b.start b.stop = inner ++ [last]
          ∧ (inner ++ [last]).length ≤ 2
          ∧ (∀ entry ∈ inner, entry.2.endsBlock = false)
          ∧ (∀ kind ∈ [BlockKind.jump, .branch, .call, .ret, .halt],
              b.kind = kind ↔ ∃ t, last.2.transfer? = some t ∧ .ofTransfer t = kind)
          ∧ (b.kind = .fallThrough ∨ b.kind = .broken ↔ last.2.endsBlock = false) := by
  -- The calls are evaluated for the blocks only, and the theorem tells the rest.
  have hfound : (Explorer.analyze ⟨jumpBack, {}, { blockInstructions := 2 }⟩ (fun _ => false)
      ⟨0, 0⟩ .entry .fresh).toOption.any (fun x => x.2.isOk && decide
        (x.1.blocks.get? 0 = some ⟨⟨0, 0⟩, 1, .fallThrough⟩
          ∧ x.1.blocks.get? 1 = some ⟨⟨0, 2⟩, 2, .jump⟩)) = true := by
    decide +kernel
  rcases exists_session_of_any (fun s => decide
    (s.blocks.get? 0 = some ⟨⟨0, 0⟩, 1, .fallThrough⟩
      ∧ s.blocks.get? 1 = some ⟨⟨0, 2⟩, 2, .jump⟩)) hfound with ⟨s, hcall, hblocks⟩
  rcases of_decide_eq_true hblocks with ⟨hfirst, hsecond⟩
  have hfresh : Explored jumpBack {} (fun l => l = { blockInstructions := 2 }) .fresh := .fresh
  have hexplored := hfresh.analyze { blockInstructions := 2 } rfl _ _ _ hcall
  exact ⟨s, hcall, hfirst, _, hsecond, rfl, hexplored.block_shape (by decide) hsecond⟩

end Disasm86
