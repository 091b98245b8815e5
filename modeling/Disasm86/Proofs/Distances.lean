import Disasm86.Instruction.Printer
import Disasm86.Proofs.TableForms
import Mathlib.Data.List.Basic

/-!
# Distances Counted from the Start

A branch holds its distance as counted from its own end, and where its address is not known it
prints the distance as counted from its start. In between the length of the instruction is added,
and the sum of a 32-bit distance and a length may be more than 32 bits can hold. Then the
instruction has no text.

This is rare enough to be written down. A distance of one or two bytes leaves all the room there
is. One of four bytes leaves too little only if it is among the greatest, as many as there are bytes
in the instruction, and all of those end in the same three bytes.

Nothing warns of such an instruction. It is decoded like any other, and has a text as soon as its
address is known, because an address wraps where a distance fails.

## Main definitions

* `Instruction.CountsFromStart`: The distances from the start have room in 32 bits.
* `Instruction.exactText`: The text with distances from the start of any size.
* `Instruction.NamesFarthest`: The bytes of a distance are those of one of the greatest.
* `Operand.FillsField`: A distance takes up as many bytes as its size says.

## Theorems

* `SignExtends.toInt_eq`: A number of at most four bytes is the signed number of its bytes.
* `exceeds_iff`: Which bytes stand for a distance that has no room for a length.
* `decode_relative`: Where a distance stands in an encoding, and what it is.
* `text_eq_exactText`, `exists_text_eq_error`: The text if there is room, and if there is not.
* `decode_text_isOk_iff`: Which instructions have a text, by their bytes.
* `decode_countsFromStart`: Which distances can be counted from the start, and what is printed.
-/

namespace Disasm86

namespace Instruction

/-- The distances from the start of the instruction have room in 32 bits. -/
def CountsFromStart (i : Instruction) : Prop :=
  ∀ d size f, Operand.relative d size f ∈ i.operands →
    -2147483648 ≤ d.toInt + i.length ∧ d.toInt + i.length ≤ 2147483647

/-- The text of an instruction whose address is not known, with distances of any size. -/
def exactText (i : Instruction) : String :=
  i.render fun displacement => distanceText (displacement.toInt + i.length)

/-- The instruction has a distance of four bytes that is below the greatest one by less than the
    length of the instruction. This is read off the encoding, without adding anything. -/
def NamesFarthest (i : Instruction) : Prop :=
  ∃ d size f b, Operand.relative d size f ∈ i.operands
    ∧ f.bytes i.bytes = [b, 0xFF, 0xFF, 0x7F] ∧ 256 ≤ b.toNat + i.length

/-- A length is added, so there is always room at the lower end. -/
theorem countsFromStart_iff_le {i : Instruction} : i.CountsFromStart ↔
    ∀ d size f, Operand.relative d size f ∈ i.operands → d.toInt + i.length ≤ 2147483647 := by
  constructor
  · exact fun h d size f hmem => (h d size f hmem).2
  · intro h d size f hmem
    have hleast := Int32.le_toInt d
    exact ⟨by omega, h d size f hmem⟩

end Instruction

section Bytes

variable {bs : List UInt8} {d : Int32}

/-- Bytes stand for a number with that many digits to the base 256. -/
theorem byteValue_lt (bs : List UInt8) : byteValue bs < Nat.pow 256 bs.length := by
  rw [← littleEndian_eq_byteValue]
  exact littleEndian_lt bs

/-- Four bytes or fewer lose nothing when they are extended. -/
theorem SignExtends.toInt_eq (h : SignExtends bs d) (hlen : bs.length ≤ 4) :
    d.toInt = (byteValue bs : Int).bmod (Nat.pow 2 (8 * bs.length)) := by
  have hext := congrArg BitVec.toInt h
  rw [BitVec.toInt_signExtend_of_le (by omega), BitVec.toInt_ofNat'] at hext
  exact hext

/-- One or two bytes are far from the ends of the range. -/
theorem SignExtends.toInt_lt (h : SignExtends bs d) (hlen : bs.length = 1 ∨ bs.length = 2) :
    d.toInt < 32768 := by
  have hvalue := h.toInt_eq (by omega)
  have hbound := Int.bmod_lt (x := (byteValue bs : Int)) (m := Nat.pow 2 (8 * bs.length))
    (Nat.pow_pos (by decide))
  rcases hlen with hlen | hlen
  · simp only [hlen] at hvalue hbound
    change _ < (((256 : Nat) : Int) + 1) / 2 at hbound
    omega
  · simp only [hlen] at hvalue hbound
    change _ < (((65536 : Nat) : Int) + 1) / 2 at hbound
    omega

/-- Four bytes are the whole number, and the upper half of them is negative. -/
theorem SignExtends.toInt_four (h : SignExtends bs d) (hlen : bs.length = 4) :
    d.toInt = if byteValue bs < 2147483648 then (byteValue bs : Int)
      else byteValue bs - 4294967296 := by
  have hvalue := h.toInt_eq (Nat.le_of_eq hlen)
  have hlt := byteValue_lt bs
  have hpow : Nat.pow 2 (8 * bs.length) = 4294967296 := by rw [hlen]
  have hpow' : Nat.pow 256 bs.length = 4294967296 := by rw [hlen]
  rw [hpow] at hvalue
  rw [hpow'] at hlt
  rw [hvalue, Int.bmod_def]
  split <;> split <;> omega

/-- A length that is added to a distance leads out of the range only from the greatest distances,
    and those have four bytes of which the last three are always the same. -/
theorem exceeds_iff (h : SignExtends bs d) (hlen : bs.length = 1 ∨ bs.length = 2 ∨ bs.length = 4)
    {n : Nat} (hn : n < 256) : 2147483647 < d.toInt + n
      ↔ ∃ b : UInt8, bs = [b, 0xFF, 0xFF, 0x7F] ∧ 256 ≤ b.toNat + n := by
  by_cases hfour : bs.length = 4
  · have hvalue := h.toInt_four hfour
    rcases List.length_eq_four.mp hfour with ⟨b₀, b₁, b₂, b₃, rfl⟩
    have hbytes : byteValue [b₀, b₁, b₂, b₃]
        = b₀.toNat + 256 * (b₁.toNat + 256 * (b₂.toNat + 256 * b₃.toNat)) := by
      simp only [← littleEndian_eq_byteValue, littleEndian]
      omega
    generalize byteValue [b₀, b₁, b₂, b₃] = number at hvalue hbytes
    have h₀ := b₀.toNat_lt
    have h₁ := b₁.toNat_lt
    have h₂ := b₂.toNat_lt
    have h₃ := b₃.toNat_lt
    constructor
    · intro hexceeds
      -- The number lies within one length of the end of its half, which settles three bytes.
      have hhalf : number < 2147483648 ∧ 2147483648 ≤ number + n := by
        split at hvalue <;> omega
      have hlast : b₁.toNat = 255 ∧ b₂.toNat = 255 ∧ b₃.toNat = 127 := by omega
      refine ⟨b₀, ?_, by omega⟩
      rw [UInt8.toNat_inj.mp (hlast.1.trans (by rfl : 255 = (0xFF : UInt8).toNat)),
        UInt8.toNat_inj.mp (hlast.2.1.trans (by rfl : 255 = (0xFF : UInt8).toNat)),
        UInt8.toNat_inj.mp (hlast.2.2.trans (by rfl : 127 = (0x7F : UInt8).toNat))]
    · rintro ⟨b, heq, hb⟩
      simp only [List.cons.injEq, and_true] at heq
      rcases heq with ⟨rfl, rfl, rfl, rfl⟩
      have hlast : (0xFF : UInt8).toNat = 255 ∧ (0x7F : UInt8).toNat = 127 := ⟨rfl, rfl⟩
      rw [hlast.1, hlast.2] at hbytes
      rw [if_pos (by omega)] at hvalue
      omega
  · -- One or two bytes cannot come near the end of the range.
    have hsmall := h.toInt_lt (by omega)
    constructor
    · intro hexceeds
      omega
    · rintro ⟨b, rfl, -⟩
      exact absurd rfl hfour

end Bytes

/-- A distance takes up as many bytes as its size says. -/
def Operand.FillsField : Operand → Prop
  | .relative _ size f => f.length = size.encodedBytes
  | _ => True

theorem Operand.fillsField_of_not_isRelative {x : Operand} (h : x.isRelative = false) :
    x.FillsField := by
  cases x with
  | relative d size f => cases h
  | _ => trivial

open Reader

/-- A number with a sign takes up as many bytes as its size says. -/
theorem yields_signed (size : OperandSize) :
    Yields (fun p => p.2.length = size.encodedBytes) (signed size) := by
  have hfield : Yields (fun p => p.2.length = size.encodedBytes) (field size.encodedBytes) :=
    yields_bind (yields_any _) fun _ _ => yields_map fun _ => rfl
  exact yields_bind hfield fun p hp => yields_pure hp

section Extent

variable (context : DecodeContext) (opcode : UInt8) (m : ModRM)

/-- Only a distance has something to fill, and it is read from its field. -/
theorem yields_readOperand_fillsField (t : Template) :
    Yields Operand.FillsField (readOperand context opcode m t) := by
  cases t with
  | relative width =>
      exact yields_bind (yields_signed _) fun p hp => yields_pure hp
  | _ =>
      intro c x c' hread
      exact Operand.fillsField_of_not_isRelative (yields_readOperand context opcode m _ _ _ _ hread)

theorem yields_readOperands_fillsField (ts : List Template) :
    Yields (fun xs => ∀ x ∈ xs, x.FillsField) (readOperands context opcode m ts) := by
  induction ts with
  | nil => exact yields_pure (by simp)
  | cons t ts ih =>
      refine yields_bind (yields_readOperand_fillsField context opcode m t) fun x hx => ?_
      refine yields_bind ih fun xs hxs => yields_pure ?_
      exact List.forall_mem_cons.mpr ⟨hx, hxs⟩

theorem Slot.allForms_true (slot : Slot) : slot.allForms (fun _ => true) = true := by
  cases slot <;> simp [Slot.allForms]

theorem yields_readSlot_fillsField (last : UInt8) (slot : Slot) :
    Yields (fun x => ∀ y ∈ x.2, y.FillsField) (readSlot context opcode last slot) :=
  yields_readSlot_of_forms opcode last slot.allForms_true fun f m _ =>
    yields_bind (yields_readOperands_fillsField context opcode m f.operands) fun _ h =>
      yields_pure h

/-- So whatever is decoded has distances that fill their fields. -/
theorem yields_readOperation_fillsField :
    Yields (fun x => ∀ y ∈ x.2, y.FillsField) (readOperation context) := by
  unfold readOperation
  refine yields_bind (yields_any _) fun opcode _ => ?_
  -- By what the first opcode byte stands for.
  split
  · exact yields_throw _
  · exact yields_bind (yields_any _) fun second _ =>
      yields_readSlot_fillsField context opcode second _
  · -- A coprocessor instruction works on its stack or on memory.
    unfold readEscape
    refine yields_bind (yields_any _) fun m _ => ?_
    split
    · split
      · exact yields_throw _
      · rename_i operands _
        refine yields_pure ?_
        cases operands <;> simp [StackOperands.operands, Operand.FillsField]
    · split
      · exact yields_throw _
      · refine yields_bind (yields_readMemory context m _) fun x hx => yields_pure ?_
        exact List.forall_mem_singleton.mpr (Operand.fillsField_of_not_isRelative hx)
  · exact yields_readSlot_fillsField context opcode opcode _

end Extent

section Decoded

variable {context : DecodeContext} {code : List UInt8} {i : Instruction} {d : Int32}
  {size : OperandSize} {f : Field}

/-- A distance is the only operand of its instruction. It stands at the end of the encoding, in as
    many bytes as its size says, and is what those bytes stand for. -/
theorem decode_relative (h : decode context code = .ok i)
    (hmem : .relative d size f ∈ i.operands) : i.operands = [.relative d size f]
      ∧ f.stop = i.length ∧ f.length = size.encodedBytes ∧ SignExtends (f.bytes i.bytes) d := by
  rcases decode_reads h with ⟨p, -, hread⟩
  have hlaid := (places_readOperation _ _ _ hread).2
  have hfills := yields_readOperation_fillsField _ _ _ _ hread _ hmem
  have honly : i.operands = [.relative d size f] := by
    -- The maps have no form with a distance and anything else.
    rcases decode_distance h with ⟨t, d', size', f', -, -, hone⟩ | ⟨-, hnone⟩
    · rw [hone, List.mem_singleton] at hmem
      rw [hone, hmem]
    · cases hnone _ hmem
  have htile := hlaid.tile
  simp only [honly] at htile
  exact ⟨honly, htile.2.2, hfills, hlaid.held _ hmem f rfl⟩

/-- An instruction has twelve bytes at most. -/
theorem decode_length_lt (h : decode context code = .ok i) : i.length < 256 :=
  Nat.lt_of_le_of_lt (decode_eq_ok h).2.2.2.2 (by decide)

theorem encodedBytes_cases (size : OperandSize) :
    size.encodedBytes = 1 ∨ size.encodedBytes = 2 ∨ size.encodedBytes = 4 := by
  cases size <;> decide

/-- The bytes of a distance say whether it has room for the length. -/
theorem decode_exceeds_iff (h : decode context code = .ok i)
    (hmem : .relative d size f ∈ i.operands) : 2147483647 < d.toInt + i.length
      ↔ ∃ b : UInt8, f.bytes i.bytes = [b, 0xFF, 0xFF, 0x7F] ∧ 256 ≤ b.toNat + i.length := by
  rcases decode_relative h hmem with ⟨-, hstop, hlength, hextends⟩
  have hbytes : (f.bytes i.bytes).length = size.encodedBytes := by
    have hstop : f.start + f.length = i.bytes.length := hstop
    rw [Field.bytes, List.length_take, List.length_drop]
    omega
  refine exceeds_iff hextends ?_ (decode_length_lt h)
  rw [hbytes]
  exact encodedBytes_cases size

/-- A distance has no room exactly if it is one of the greatest, by its bytes. -/
theorem countsFromStart_iff (h : decode context code = .ok i) :
    i.CountsFromStart ↔ ¬ i.NamesFarthest := by
  rw [Instruction.countsFromStart_iff_le]
  constructor
  · rintro hfits ⟨d, size, f, b, hmem, hbytes, hb⟩
    have hexceeds := (decode_exceeds_iff h hmem).mpr ⟨b, hbytes, hb⟩
    exact Int.not_lt.mpr (hfits d size f hmem) hexceeds
  · intro hnot d size f hmem
    by_contra hexceeds
    rcases (decode_exceeds_iff h hmem).mp (Int.not_le.mp hexceeds) with ⟨b, hbytes, hb⟩
    exact hnot ⟨d, size, f, b, hmem, hbytes, hb⟩

end Decoded

namespace Instruction

variable {i : Instruction} {target target' : Int32 → String}

/-- The text depends on the targets of the distances alone. -/
theorem render_congr
    (h : ∀ d size f, Operand.relative d size f ∈ i.operands → target d = target' d) :
    i.render target = i.render target' := by
  have hoperands : i.operands.map (operandText target) = i.operands.map (operandText target') := by
    refine List.map_congr_left fun x hx => ?_
    cases x with
    | relative d size f => exact h d size f hx
    | _ => rfl
  unfold render
  rw [hoperands]

/-- Only a distance can have no room. -/
theorem operandOverflow?_eq_some_iff {n : Nat} {x : Operand} {cause : Overflow} :
    operandOverflow? n x = some cause ↔ ∃ d size f, x = .relative d size f ∧ cause = ⟨d, n⟩
      ∧ ¬ (-2147483648 ≤ d.toInt + n ∧ d.toInt + n ≤ 2147483647) := by
  cases x with
  | relative d size f =>
      simp only [operandOverflow?, Option.ite_none_left_eq_some, Option.some.injEq,
        Operand.relative.injEq]
      constructor
      · rintro ⟨hroom, rfl⟩
        exact ⟨d, size, f, ⟨rfl, rfl, rfl⟩, rfl, hroom⟩
      · rintro ⟨d', size', f', ⟨rfl, rfl, rfl⟩, rfl, hroom⟩
        exact ⟨hroom, rfl⟩
  | _ => simp [operandOverflow?]

/-- Nothing is in the way of the text exactly if all distances have room. -/
theorem findSome?_overflow_eq_none_iff :
    i.operands.findSome? (operandOverflow? i.length) = none ↔ i.CountsFromStart := by
  rw [List.findSome?_eq_none_iff]
  constructor
  · intro h d size f hmem
    by_contra hroom
    have hsome := operandOverflow?_eq_some_iff.mpr ⟨d, size, f, rfl, rfl, hroom⟩
    rw [h _ hmem] at hsome
    cases hsome
  · intro h x hx
    rw [Option.eq_none_iff_forall_ne_some]
    intro cause hcause
    rcases operandOverflow?_eq_some_iff.mp hcause with ⟨d, size, f, rfl, -, hroom⟩
    exact hroom (h d size f hx)

/-- A sum that has room in 32 bits is that of the numbers. -/
theorem toInt_add_length {d : Int32} {n : Nat} (hn : n < 256) (hroom : d.toInt + n ≤ 2147483647) :
    (d + Int32.ofNat n).toInt = d.toInt + n := by
  have hleast := Int32.le_toInt d
  have hlength : (Int32.ofNat n).toInt = n := Int32.toInt_ofNat_of_lt (by omega)
  -- The sum of the words wraps only where that of the numbers has no room.
  have hsum := Int32.toInt_add d (Int32.ofNat n)
  rw [hlength, Int.bmod_def] at hsum
  simp only [Nat.reducePow] at hsum
  split at hsum <;> omega

/-- Where all distances have room, they are printed as they are. -/
theorem text_eq_exactText (hlength : i.length < 256) (h : i.CountsFromStart) :
    i.text = .ok i.exactText := by
  rw [text, findSome?_overflow_eq_none_iff.mpr h]
  refine congrArg Except.ok (render_congr fun d size f hmem => ?_)
  rw [toInt_add_length hlength (h d size f hmem).2]

/-- Where one of them has none, it is the reason why there is no text. -/
theorem exists_text_eq_error (h : ¬ i.CountsFromStart) :
    ∃ d size f, Operand.relative d size f ∈ i.operands ∧ 2147483647 < d.toInt + i.length
      ∧ i.text = .error ⟨d, i.length⟩ := by
  cases hfind : i.operands.findSome? (operandOverflow? i.length) with
  | none => exact absurd (findSome?_overflow_eq_none_iff.mp hfind) h
  | some cause =>
      rcases List.exists_of_findSome?_eq_some hfind with ⟨x, hmem, hcause⟩
      rcases operandOverflow?_eq_some_iff.mp hcause with ⟨d, size, f, rfl, rfl, hroom⟩
      have hleast := Int32.le_toInt d
      refine ⟨d, size, f, hmem, by omega, ?_⟩
      rw [text, hfind]

end Instruction

section Exact

variable {context : DecodeContext} {code : List UInt8} {i : Instruction}

/-- The bytes of a decoded instruction say whether it has a text. -/
theorem decode_text_isOk_iff (h : decode context code = .ok i) :
    (∃ text, i.text = .ok text) ↔ ¬ i.NamesFarthest := by
  rw [← countsFromStart_iff h]
  constructor
  · rintro ⟨text, htext⟩
    by_contra hcounts
    rcases Instruction.exists_text_eq_error hcounts with ⟨d, size, f, -, -, herror⟩
    rw [herror] at htext
    cases htext
  · exact fun hcounts => ⟨_, Instruction.text_eq_exactText (decode_length_lt h) hcounts⟩

/-- A decoded instruction whose address is not known is printed as it is, unless its distance is one
    of the greatest that there are: four bytes that end in these three and whose first one has no
    room for the length. Then the sum is too large, and there is no text. -/
theorem decode_countsFromStart (h : decode context code = .ok i) :
    (i.CountsFromStart ↔ ¬ i.NamesFarthest)
      ∧ (i.CountsFromStart → i.text = .ok i.exactText)
      ∧ (¬ i.CountsFromStart → ∃ d size f, Operand.relative d size f ∈ i.operands
        ∧ 2147483647 < d.toInt + i.length ∧ i.text = .error ⟨d, i.length⟩) :=
  ⟨countsFromStart_iff h, Instruction.text_eq_exactText (decode_length_lt h),
    Instruction.exists_text_eq_error⟩

/-- A jump by a distance of four bytes, under a size prefix. -/
def wideJump (d : Int32) (low : UInt8) : Instruction where
  operation := .jump
  prefixes := { operandSize := true }
  operands := [.relative d .dword ⟨2, 4⟩]
  bytes := [0x66, 0xE9, low, 0xFF, 0xFF, 0x7F]

/-- The greatest distance that can be counted from the start. -/
theorem decode_countsFromStart_greatest : let i := wideJump 0x7FFFFFF9 0xF9
    decode {} [0x66, 0xE9, 0xF9, 0xFF, 0xFF, 0x7F] = .ok i ∧ i.CountsFromStart
      ∧ i.text = .ok "jmp $+0x7fffffff" := by
  intro i
  have h : decode {} [0x66, 0xE9, 0xF9, 0xFF, 0xFF, 0x7F] = .ok i := by decide +kernel
  have hnot : ¬ i.NamesFarthest := by
    rintro ⟨d, size, f, b, hmem, hbytes, hb⟩
    cases List.mem_singleton.mp hmem
    cases hbytes
    exact absurd hb (by decide)
  have hcounts := (decode_countsFromStart h).1.mpr hnot
  refine ⟨h, hcounts, ?_⟩
  rw [(decode_countsFromStart h).2.1 hcounts]
  decide +kernel

/-- A distance six bytes further cannot be counted from the start. The instruction is decoded, and
    without an address it cannot be printed. -/
theorem decode_countsFromStart_exceeded : let i := wideJump 0x7FFFFFFF 0xFF
    decode {} [0x66, 0xE9, 0xFF, 0xFF, 0xFF, 0x7F] = .ok i ∧ ¬ i.CountsFromStart
      ∧ i.text = .error ⟨0x7FFFFFFF, 6⟩ ∧ i.exactText = "jmp $+0x80000005" := by
  refine ⟨by decide +kernel, ?_, by decide +kernel, by decide +kernel⟩
  intro hcounts
  have hfits := hcounts 0x7FFFFFFF .dword ⟨2, 4⟩ List.mem_cons_self
  exact absurd hfits.2 (by decide)

end Exact

end Disasm86
