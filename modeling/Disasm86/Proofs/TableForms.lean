import Disasm86.Explore.Transfer
import Disasm86.Proofs.BranchForms
import Disasm86.Proofs.Fields
import Disasm86.Proofs.PrefixRun

/-!
# Which Encodings Name a Jump Table

A jump through a word of the code segment at a displacement from a register is taken for a jump
through a table, and the displacement for the offset of the table. The form that is meant has a
displacement of two bytes, because only that can be the offset of a table. But what is looked at is
the decoded operand, where a displacement is a number and no longer tells how many bytes it had. So
a jump with a displacement of one byte, or with none, is taken for one through a table as well.

`decode_tableSlot` says exactly which encodings name a slot and which slot it is, and that the form
that is meant is told from the others by the mode of the addressing byte alone.

The way from the operand back to the encoding leads through the maps. Of all forms that jump, only
one does not ask for a distance, and it is a member of the group of the last opcode. So a jump
through memory begins with that opcode, and `decode_indirect` says what is read behind it.

## Main definitions

* `Instruction.JumpsThrough`: A jump through a word of the code segment, by a register.
* `Instruction.NamesTable`: Such a jump with a displacement of two bytes.
* `EncodesTableJump`: The bytes of such a jump, whatever its displacement.
* `extendedWord`: The 16-bit number of a displacement, which may be shorter.

## Theorems

* `jumpTableSlot?_eq_some_iff`: The slot that an instruction names, by its operand.
* `holds_scanPrefixes`: The prefixes that are collected are those that lead.
* `decode_reads`: Reading an instruction again ends where it ends.
* `readOperation_of_jump`: A jump through memory has the last opcode.
* `places_readMemory_exact`: What is read for a place in memory.
* `signedLittleEndian_and`: The low word of a displacement.
* `EncodesTableJump.exists_jumpsThrough`: The jump that such an encoding stands for.
* `Instruction.JumpsThrough.exists_encodes`: The encoding of such a jump.
* `decode_tableSlot`: The slot that an encoding names.
-/

namespace Disasm86

/-- The bytes of a displacement. There are none if it has no field. -/
def MemoryOperand.displacementBytes (m : MemoryOperand) (encoding : List UInt8) : List UInt8 :=
  (m.field.map (·.bytes encoding)).getD []

/-- The instruction is a near jump through a word of memory in the code segment, and the address
    has a register in it. -/
structure Instruction.JumpsThrough (i : Instruction) (m : MemoryOperand) : Prop where
  jumps : i.operation = .jump
  only : i.operands = [.memory m]
  ofWord : m.size = some .word
  inCode : m.segmentOverride = some (.segment .cs)
  byRegister : m.base.isSome ∨ m.index.isSome

/-- An instruction jumps through one place. -/
theorem Instruction.JumpsThrough.unique {i : Instruction} {m m' : MemoryOperand}
    (h : i.JumpsThrough m) (h' : i.JumpsThrough m') : m = m' := by
  have hsame := h.only
  rw [h'.only] at hsame
  injection hsame with hsame
  injection hsame with hsame
  exact hsame.symm

/-- The jump has a displacement of two bytes, which are an offset without a sign. -/
def Instruction.NamesTable (i : Instruction) (offset : Nat) : Prop :=
  ∃ m f, i.JumpsThrough m ∧ m.field = some f ∧ f.length = 2
    ∧ offset = littleEndian (f.bytes i.bytes)

/-- The bytes are prefixes, the opcode, an addressing byte and a displacement, and they encode a
    near jump through a word of memory in the code segment with a register in its address. The
    length of the displacement is left open, since the addressing byte tells it. -/
structure EncodesTableJump (encoding : List UInt8) (addressing : UInt8)
    (displacement : List UInt8) : Prop where
  parts : encoding = leadingPrefixes encoding ++ 0xFF :: addressing :: displacement
  inCode : 0x2E ∈ leadingPrefixes encoding
  ofWord : 0x66 ∉ leadingPrefixes encoding
  jumps : (ModRM.ofByte addressing).reg = 4
  throughMemory : (ModRM.ofByte addressing).mode ≠ 3
  byRegister : ¬ ((ModRM.ofByte addressing).mode = 0 ∧ (ModRM.ofByte addressing).rm = 6)

/-- An encoding has one addressing byte and one displacement. -/
theorem EncodesTableJump.unique {encoding : List UInt8} {b b' : UInt8} {d d' : List UInt8}
    (h : EncodesTableJump encoding b d) (h' : EncodesTableJump encoding b' d') :
    b = b' ∧ d = d' := by
  have hparts := List.append_cancel_left (h.parts.symm.trans h'.parts)
  injection hparts with _ hparts
  injection hparts with hb hd
  exact ⟨hb, hd⟩

/-- The 16-bit number of a displacement. One byte is extended by its sign, and no bytes are zero. -/
def extendedWord : List UInt8 → Nat
  | [b] => if b < 0x80 then b.toNat else 0xFF00 + b.toNat
  | bs => littleEndian bs

/-- The slot that an instruction names, by its operand. -/
theorem jumpTableSlot?_eq_some_iff {location slot : Address} {i : Instruction} :
    jumpTableSlot? location i = some slot ↔ ∃ m, i.JumpsThrough m
      ∧ slot = ⟨location.segment, m.displacement &&& greatestOffset⟩ := by
  constructor
  · intro h
    unfold jumpTableSlot? at h
    split at h
    · rename_i m hop honly
      split at h
      · rename_i hform
        rcases hform with ⟨hcode, hword, hdirect⟩
        have hregister : m.base.isSome ∨ m.index.isSome := by
          cases hbase : m.base <;> cases hindex : m.index <;>
            simp_all [MemoryOperand.isDirect]
        exact ⟨m, ⟨hop, honly, hword, hcode, hregister⟩, (Option.some.inj h).symm⟩
      · cases h
    · cases h
  · rintro ⟨m, ⟨hop, honly, hword, hcode, hregister⟩, rfl⟩
    -- An address with a register in it is not a direct one.
    have hdirect : ¬ m.isDirect := by
      rcases hregister with h | h <;> simp [MemoryOperand.isDirect, Option.isSome_iff_ne_none.mp h]
    simp only [jumpTableSlot?, hop, honly]
    exact if_pos ⟨hcode, hword, hdirect⟩

/-- The low word of a 32-bit number. -/
theorem ofInt_and_greatestOffset (z : Int) :
    Int32.ofInt z &&& greatestOffset = Int32.ofNat (z % 65536).toNat := by
  refine Int32.toBitVec_inj.mp (BitVec.eq_of_toNat_eq ?_)
  have hofInt : (Int32.ofInt z).toBitVec = BitVec.ofInt 32 z := rfl
  have hofNat : (Int32.ofNat (z % 65536).toNat).toBitVec = BitVec.ofNat 32 (z % 65536).toNat := rfl
  have hmask : greatestOffset.toBitVec.toNat = 65535 := by decide
  have hlow : ∀ n : Nat, n &&& 65535 = n % 65536 := fun n => Nat.and_two_pow_sub_one_eq_mod n 16
  rw [Int32.toBitVec_and, BitVec.toNat_and, hmask, hlow, hofInt, hofNat, BitVec.toNat_ofInt,
    BitVec.toNat_ofNat]
  omega

/-- The low word of a displacement is the number that its bytes stand for. -/
theorem signedLittleEndian_and {bs : List UInt8} (h : bs.length ≤ 2) :
    signedLittleEndian bs &&& greatestOffset = Int32.ofNat (extendedWord bs) := by
  rw [signedLittleEndian, ofInt_and_greatestOffset]
  refine congrArg Int32.ofNat ?_
  match bs, h with
  | [], _ => rfl
  | [b], _ =>
      have hb := b.toNat_lt
      have hlow : b < 0x80 ↔ b.toNat < 128 := UInt8.lt_iff_toNat_lt
      have hvalue : littleEndian [b] = b.toNat := by simp [littleEndian]
      have hpow : Nat.pow 2 (8 * [b].length) = 256 := show Nat.pow 2 8 = 256 by decide
      rw [hvalue, hpow, Int.bmod_def]
      simp only [extendedWord, hlow]
      by_cases hpositive : b.toNat < 128
      · rw [if_pos hpositive, if_pos (by omega)]
        omega
      · rw [if_neg hpositive, if_neg (by omega)]
        omega
  | [b, c], _ =>
      -- Two bytes fill the word, so their sign does not matter.
      have hlt := littleEndian_lt [b, c]
      rw [show Nat.pow 256 [b, c].length = 65536 from show Nat.pow 256 2 = 65536 by decide] at hlt
      have hpow : Nat.pow 2 (8 * [b, c].length) = 65536 := show Nat.pow 2 16 = 65536 by decide
      have hvalue : extendedWord [b, c] = littleEndian [b, c] := rfl
      have hmod := Int.bmod_emod (x := littleEndian [b, c]) (m := 65536)
      rw [hpow, hvalue]
      omega

section Prefixes

variable {seen p : Prefixes} {position : Nat} {code : List UInt8} {c : Cursor}

/-- Scanning collects the prefixes that the bytes begin with. -/
theorem holds_scanPrefixes (h : scanPrefixes seen position code = .ok (p, c)) (x : LegacyPrefix) :
    p.Holds x ↔ seen.Holds x ∨ ∃ b ∈ leadingPrefixes code, legacyPrefix? b = some x := by
  induction code generalizing seen position with
  | nil =>
      cases h
      simp [leadingPrefixes]
  | cons b bs ih =>
      rw [scanPrefixes] at h
      unfold leadingPrefixes at ih ⊢
      rw [List.takeWhile_cons]
      cases hb : legacyPrefix? b with
      | none =>
          simp only [hb] at h
          cases h
          simp
      | some found =>
          -- A prefix of a group that is taken makes scanning fail.
          cases hadd : seen.add? found with
          | none =>
              simp only [hb, hadd] at h
              cases h
          | some seen' =>
              simp only [hb, hadd] at h
              rw [ih h, Prefixes.holds_add? hadd, Option.isSome_some, if_pos rfl, or_assoc]
              simp only [List.mem_cons, exists_eq_or_imp, hb, Option.some.injEq, eq_comm (a := x)]

end Prefixes

open Reader

section Reading

variable {context : DecodeContext} {code : List UInt8} {i : Instruction}

/-- Reading the bytes of an instruction again ends where the instruction ends. -/
theorem decode_reads (h : decode context code = .ok i) :
    ∃ p, (∀ x, p.Holds x ↔ ∃ b ∈ leadingPrefixes i.bytes, legacyPrefix? b = some x)
      ∧ readOperation (context.under p) ⟨(leadingPrefixes i.bytes).length,
          i.bytes.drop (leadingPrefixes i.bytes).length⟩
        = .ok ((i.operation, i.operands), ⟨i.length, []⟩) := by
  have hself : decode context i.bytes = .ok i := by
    rw [← List.append_nil i.bytes]
    exact (decode_eq_ok h).2.2.2.1 []
  rcases decode_eq_ok_iff.mp hself
    with ⟨p, c, ⟨operation, operands⟩, ⟨stop, rest⟩, hscan, hread, hi⟩
  rw [scanPrefixes_position hscan, Nat.zero_add] at hread
  have hrest := (places_readOperation (context.under p) _ _ hread).1
  have hbytes : (i.bytes.take stop).take Instruction.capacity = i.bytes :=
    congrArg Instruction.bytes hi
  -- The instruction keeps no more than has been read, and reading does not leave its bytes.
  have hstop : stop = i.length := by
    rcases (forward_readOperation _).taken hread with ⟨used, -, hused, hpos, -⟩
    have hfront : (leadingPrefixes i.bytes).length ≤ i.bytes.length :=
      (List.takeWhile_sublist _).length_le
    have hkept := congrArg List.length hbytes
    have hwindow := congrArg List.length hused
    simp only [List.length_take, List.length_drop, List.length_append] at hkept hwindow hpos
    rw [Instruction.length]
    omega
  have hoperation : i.operation = operation := (congrArg Instruction.operation hi).symm
  have hoperands : i.operands = operands := (congrArg Instruction.operands hi).symm
  refine ⟨p, fun x => ?_, ?_⟩
  · rw [holds_scanPrefixes hscan, or_iff_right Prefixes.not_holds_none]
  · have hnone : rest = [] := by
      rw [show rest = i.bytes.drop stop from hrest, hstop, Instruction.length, List.drop_length]
    rw [hread, hoperation, hoperands, hstop, hnone]

end Reading

section Maps

/-- Whether a form that jumps asks for nothing but distances. -/
def Form.jumpsByDistance (f : Form) : Bool :=
  f.operation ≠ .jump || f.operands.all Template.isRelative

namespace Opcode

/-- The map of first opcodes has 256 entries, and none of them but the last jumps otherwise than by
    a distance. -/
theorem primaryRows_jumpsByDistance : primaryRows.flatten.length = 256
    ∧ primaryRows.flatten.dropLast.all (Entry.allForms Form.jumpsByDistance) = true := by
  decide +kernel

/-- Every opcode but the last jumps by a distance, if it jumps. -/
theorem slot_jumpsByDistance {b : UInt8} {slot : Slot} (hb : b ≠ 0xFF)
    (h : primary b = .opcode slot) : slot.allForms Form.jumpsByDistance = true := by
  rcases primaryRows_jumpsByDistance with ⟨hlength, hall⟩
  have hlt : b.toNat < 255 := by
    have hmax := b.toNat_lt
    have hne : b.toNat ≠ 255 := fun heq => hb (UInt8.toNat_inj.mp heq)
    omega
  have hget : primaryRows.flatten.dropLast[b.toNat]? = some (primary b) := by
    rw [List.getElem?_dropLast, hlength, if_pos hlt, primary, primaryMap,
      Array.getD_eq_getD_getElem?, List.getElem?_toArray, List.getElem?_eq_getElem (by omega),
      Option.getD_some]
  have hentry := List.all_eq_true.mp hall _ (List.mem_of_getElem? hget)
  rw [h] at hentry
  exact hentry

/-- No opcode of two bytes jumps through memory. -/
theorem secondary_jumpsByDistance (b : UInt8) :
    (secondary b).allForms Form.jumpsByDistance = true := by
  unfold secondary
  split <;> decide

set_option maxRecDepth 2000 in
theorem primary_last : primary 0xFF = .opcode (.group indirectGroup) := rfl

/-- In the group of the last opcode one member jumps through memory. -/
theorem indirectGroup_jumpsByDistance {reg : Fin 8} {f : Form} (hreg : reg ≠ 4)
    (h : indirectGroup reg = some f) : f.jumpsByDistance = true := by
  have hall : ∀ reg : Fin 8, reg ≠ 4 → (indirectGroup reg).all Form.jumpsByDistance := by decide
  have hf := hall reg hreg
  rw [h] at hf
  exact hf

end Opcode

end Maps

section Jumps

variable {context : DecodeContext} {position : Nat} {b : UInt8} {rest : List UInt8}

/-- What a form reads that jumps by a distance is no jump through memory. -/
theorem yields_form_jump (context : DecodeContext) (opcode : UInt8) (m : ModRM) {f : Form}
    (h : f.jumpsByDistance = true) :
    Yields (fun x => ∀ place, x ≠ (.jump, [.memory place]))
      (readOperands context opcode m f.operands >>= fun xs => pure (f.operation, xs)) := by
  refine yields_bind (yields_readOperands context opcode m f.operands) fun xs hxs =>
    yields_pure fun place heq => ?_
  rcases Prod.mk.inj heq with ⟨hoperation, rfl⟩
  have hrelative : f.operands.all Template.isRelative = true := by
    simpa [Form.jumpsByDistance, hoperation] using h
  -- A place in memory is no distance, but its template would ask for one.
  rcases List.map_eq_singleton_iff.mp hxs.symm with ⟨t, ht, hnot⟩
  rw [ht, List.all_cons, Bool.and_eq_true, hnot] at hrelative
  exact absurd hrelative.1 Bool.false_ne_true

/-- What is read behind a first opcode byte, by what the byte stands for. -/
def readEntry (context : DecodeContext) (opcode : UInt8) :
    Entry → Reader (Operation × List Operand)
  | .legacyPrefix => throw (.invalidOpcode opcode)
  | .twoByte => byte >>= fun second =>
      readSlot context opcode second (Opcode.secondary second)
  | .coprocessor => readEscape context opcode
  | .opcode slot => readSlot context opcode opcode slot

/-- Reading an operation is reading a byte, and then what it stands for. -/
theorem readOperation_eq (context : DecodeContext) : readOperation context
    = byte >>= fun opcode => readEntry context opcode (Opcode.primary opcode) := by
  unfold readOperation
  refine congrArg (byte >>= ·) (funext fun opcode => ?_)
  cases Opcode.primary opcode <;> rfl

/-- If there is a first byte, it decides. -/
theorem readOperation_cons (opcode : UInt8) :
    readOperation context ⟨position, opcode :: rest⟩
      = readEntry context opcode (Opcode.primary opcode) ⟨position + 1, rest⟩ := by
  have hbyte : byte ⟨position, opcode :: rest⟩ = .ok (opcode, ⟨position + 1, rest⟩) := rfl
  rw [readOperation_eq, bind_apply, hbyte, Except.bind]

/-- Only the last opcode reads a jump through memory. -/
theorem yields_readEntry_jump {opcode : UInt8} (hopcode : opcode ≠ 0xFF) :
    Yields (fun x => ∀ place, x ≠ (.jump, [.memory place]))
      (readEntry context opcode (Opcode.primary opcode)) := by
  cases hentry : Opcode.primary opcode with
  | legacyPrefix => exact yields_throw _
  | twoByte =>
      refine yields_bind (yields_any byte) fun second _ => ?_
      exact yields_readSlot_of_forms opcode second (Opcode.secondary_jumpsByDistance second)
        fun f m hf => yields_form_jump context opcode m hf
  | coprocessor =>
      -- The operations of the coprocessor are none of the jumps.
      refine yields_bind (yields_any readModRM) fun m _ => ?_
      split
      · split
        · exact yields_throw _
        · exact yields_pure fun place heq => (by cases heq)
      · split
        · exact yields_throw _
        · exact yields_map fun x place heq => (by cases heq)
  | opcode slot =>
      exact yields_readSlot_of_forms opcode opcode (Opcode.slot_jumpsByDistance hopcode hentry)
        fun f m hf => yields_form_jump context opcode m hf

/-- Behind the last opcode, the addressing byte picks a member of its group. -/
theorem readOperation_last : readOperation context ⟨position, 0xFF :: b :: rest⟩
    = (Opcode.indirectGroup (ModRM.ofByte b).reg).elim (.error (.invalidOpcode 0xFF)) fun f =>
      (readOperands context 0xFF (.ofByte b) f.operands >>= fun xs =>
        pure (f.operation, xs) : Reader (Operation × List Operand)) ⟨position + 2, rest⟩ := by
  have hmodrm : readModRM ⟨position + 1, b :: rest⟩ = .ok (.ofByte b, ⟨position + 2, rest⟩) := rfl
  rw [readOperation_cons, Opcode.primary_last, readEntry, readSlot, bind_apply, hmodrm, Except.bind]
  cases Opcode.indirectGroup (ModRM.ofByte b).reg <;> rfl

/-- The member that jumps reads the place that the addressing byte tells. -/
theorem readOperation_jump (hreg : (ModRM.ofByte b).reg = 4) :
    readOperation context ⟨position, 0xFF :: b :: rest⟩
      = (readPlace context (.ofByte b) context.operandSize >>= fun x =>
          pure (.jump, [x]) : Reader (Operation × List Operand)) ⟨position + 2, rest⟩ := by
  have hmember : Opcode.indirectGroup (ModRM.ofByte b).reg = some ⟨.jump, [.place .operand]⟩ := by
    rw [hreg]
    rfl
  rw [readOperation_last, hmember]
  simp only [Option.elim_some, readOperands, readOperand, bind_assoc, pure_bind]
  rfl

/-- A jump through memory has the last opcode, and an addressing byte that picks the jump and does
    not select a register. -/
theorem readOperation_of_jump {c c' : Cursor} {place : MemoryOperand}
    (h : readOperation context c = .ok ((.jump, [.memory place]), c')) :
    ∃ b rest, c.rest = 0xFF :: b :: rest ∧ (ModRM.ofByte b).reg = 4
      ∧ (ModRM.ofByte b).mode ≠ 3 := by
  rcases c with ⟨position, _ | ⟨opcode, rest⟩⟩
  · cases h
  have hopcode : opcode = 0xFF := by
    by_contra hne
    rw [readOperation_cons] at h
    exact yields_readEntry_jump hne _ _ _ h place rfl
  subst hopcode
  rcases rest with _ | ⟨b, rest⟩
  · rw [readOperation_cons, Opcode.primary_last] at h
    cases h
  have hreg : (ModRM.ofByte b).reg = 4 := by
    by_contra hne
    rw [readOperation_last] at h
    cases hmember : Opcode.indirectGroup (ModRM.ofByte b).reg with
    | none =>
        rw [hmember] at h
        cases h
    | some f =>
        rw [hmember] at h
        have hdistance := Opcode.indirectGroup_jumpsByDistance hne hmember
        exact yields_form_jump context 0xFF _ hdistance _ _ _ h place rfl
  refine ⟨b, rest, rfl, hreg, fun hmode => ?_⟩
  rw [readOperation_jump hreg, readPlace, if_pos hmode] at h
  cases h

end Jumps

section Memory

/-- The number of bytes of the displacement that an addressing byte asks for. -/
def ModRM.displacementLength (m : ModRM) : Nat :=
  (m.displacementSize?.map OperandSize.encodedBytes).getD 0

/-- The place that is read for an addressing byte, with its displacement between two positions. -/
structure Placed (context : DecodeContext) (code : List UInt8) (start stop : Nat) (m : ModRM)
    (size : Option OperandSize) (place : MemoryOperand) : Prop where
  size_eq : place.size = size
  override_eq : place.segmentOverride = context.segmentOverride
  base_eq : place.base = m.registers.1
  index_eq : place.index = m.registers.2
  field_eq : place.field = m.displacementSize?.map fun w => ⟨start, w.encodedBytes⟩
  value : place.displacement = signedLittleEndian (place.displacementBytes code)
  length_eq : (place.displacementBytes code).length = m.displacementLength
  stop_eq : stop = start + m.displacementLength

/-- A displacement is read from its field, and without a field it is zero. -/
theorem places_readDisplacement_exact {code : List UInt8} {a : Nat} (size : Option OperandSize) :
    Places code a (fun p c => p.2 = size.map (fun w => ⟨a, w.encodedBytes⟩)
      ∧ p.1 = signedLittleEndian ((p.2.map (·.bytes code)).getD [])
      ∧ ((p.2.map (·.bytes code)).getD []).length = (size.map OperandSize.encodedBytes).getD 0
      ∧ c = a + (size.map OperandSize.encodedBytes).getD 0) (readDisplacement size) := by
  cases size with
  | none => exact places_pure ⟨rfl, show (0 : Int32) = signedLittleEndian [] by decide, rfl, rfl⟩
  | some size =>
      refine places_bind (P := fun p c => p.2 = ⟨a, size.encodedBytes⟩
        ∧ p.1 = signedLittleEndian (p.2.bytes code) ∧ (p.2.bytes code).length = size.encodedBytes
        ∧ c = a + size.encodedBytes) ?_ ?_
      · refine places_map (places_field size.encodedBytes) ?_
        rintro ⟨bs, f⟩ c ⟨hf, hbs, hlength, hc⟩
        simp only at hf hbs hlength
        rw [hbs] at hlength ⊢
        exact ⟨hf, rfl, hlength, hc⟩
      · rintro ⟨value, f⟩ c ⟨hf, hvalue, hlength, hc⟩
        exact places_pure ⟨congrArg some hf, hvalue, hlength, hc⟩

/-- The place is made of the registers that the addressing byte names and of the displacement. -/
theorem places_readMemory_exact {code : List UInt8} {a : Nat} (context : DecodeContext) (m : ModRM)
    (size : Option OperandSize) :
    Places code a (fun x c => ∃ place, x = .memory place ∧ Placed context code a c m size place)
      (readMemory context m size) := by
  unfold readMemory
  split
  · exact places_bind (places_throw (P := fun _ _ => False) _) fun _ _ h => h.elim
  · refine places_map (places_readDisplacement_exact _) ?_
    rintro ⟨value, f⟩ c ⟨hf, hvalue, hlength, hc⟩
    exact ⟨_, rfl, rfl, rfl, rfl, rfl, hf, hvalue, hlength, hc⟩

theorem extendedWord_of_length {bs : List UInt8} (h : bs.length = 2) :
    extendedWord bs = littleEndian bs := by
  match bs, h with
  | [_, _], _ => rfl

/-- One combination of mode and register stands for an address without registers. -/
theorem ModRM.registers_isSome_iff (m : ModRM) :
    (m.registers.1.isSome ∨ m.registers.2.isSome) ↔ ¬ (m.mode = 0 ∧ m.rm = 6) := by
  rcases m with ⟨mode, reg, rm⟩
  revert mode reg rm
  decide +kernel

theorem ModRM.displacementLength_le (m : ModRM) : m.displacementLength ≤ 2 := by
  rcases m with ⟨mode, reg, rm⟩
  revert mode reg rm
  decide +kernel

/-- An address with a register has two bytes of displacement in one mode only. -/
theorem ModRM.displacementLength_eq_two_iff {m : ModRM} (hregister : ¬ (m.mode = 0 ∧ m.rm = 6)) :
    m.displacementLength = 2 ↔ m.mode = 2 := by
  rcases m with ⟨mode, reg, rm⟩
  revert mode reg rm
  decide +kernel

end Memory

section Decoded

variable {code : List UInt8} {i : Instruction} {b : UInt8} {d : List UInt8} {p : Prefixes}
  {place : MemoryOperand}

theorem legacyPrefix?_eq_code_iff {b : UInt8} :
    legacyPrefix? b = some (.segment .cs) ↔ b = 0x2E := by
  rw [← UInt8.toNat_inj]
  unfold legacyPrefix?
  split <;> simp_all

/-- Without a prefix the operands are words and go through no segment register of their own. -/
theorem under_default {lead : List UInt8}
    (h : ∀ x, p.Holds x ↔ ∃ b ∈ lead, legacyPrefix? b = some x) :
    ((({} : DecodeContext).under p).operandSize = .word ↔ 0x66 ∉ lead)
      ∧ ((({} : DecodeContext).under p).segmentOverride = some (.segment .cs) ↔ 0x2E ∈ lead) := by
  have hsize : p.operandSize = true ↔ 0x66 ∈ lead := by
    refine (h .operandSize).trans ?_
    simp only [legacyPrefix?_eq_operandSize_iff, exists_eq_right]
  have hsegment : p.segment = some .cs ↔ 0x2E ∈ lead := by
    refine (h (.segment .cs)).trans ?_
    simp only [legacyPrefix?_eq_code_iff, exists_eq_right]
  rw [← hsize, ← hsegment]
  constructor
  · cases hp : p.operandSize <;> simp [DecodeContext.under, hp, OperandSize.toggle]
  · cases hp : p.segment <;> simp [DecodeContext.under, hp]

/-- The jump that an encoding with the last opcode and such an addressing byte stands for. -/
theorem decode_indirect (h : decode {} code = .ok i)
    (hparts : i.bytes = leadingPrefixes i.bytes ++ 0xFF :: b :: d)
    (hreg : (ModRM.ofByte b).reg = 4) (hmode : (ModRM.ofByte b).mode ≠ 3) :
    ∃ place context, i.operation = .jump ∧ i.operands = [.memory place]
      ∧ (context.operandSize = .word ↔ 0x66 ∉ leadingPrefixes i.bytes)
      ∧ (context.segmentOverride = some (.segment .cs) ↔ 0x2E ∈ leadingPrefixes i.bytes)
      ∧ Placed context i.bytes ((leadingPrefixes i.bytes).length + 2) i.length (.ofByte b)
        (some context.operandSize) place
      ∧ place.displacementBytes i.bytes = d := by
  rcases decode_reads h with ⟨p, hholds, hread⟩
  rcases under_default hholds with ⟨hword, hcode⟩
  generalize ({} : DecodeContext).under p = context at hread hword hcode
  generalize hlead : leadingPrefixes i.bytes = lead at *
  have hdrop : i.bytes.drop (lead.length + 2) = d := by
    rw [hparts, ← List.drop_drop, List.drop_left]
    rfl
  rw [hparts, List.drop_left, readOperation_jump hreg, readPlace, if_neg hmode] at hread
  -- What is read behind the addressing byte is the place, and with it the instruction ends.
  have hplaced := places_map (g := fun x => (Operation.jump, [x]))
    (Q := fun y c => ∃ place, y = (.jump, [.memory place])
      ∧ Placed context i.bytes (lead.length + 2) c (.ofByte b) (some context.operandSize) place)
    (places_readMemory_exact context (.ofByte b) (some context.operandSize))
    (by
      rintro x c ⟨place, rfl, hplace⟩
      exact ⟨place, rfl, hplace⟩)
  rw [Places, hdrop] at hplaced
  rcases (hplaced _ _ hread).2 with ⟨place, heq, hplace⟩
  rcases Prod.mk.inj heq with ⟨hoperation, hoperands⟩
  refine ⟨place, context, hoperation, hoperands, hword, hcode, hplace, ?_⟩
  -- The displacement reaches up to the end, so it is all that is left.
  have hlength : d.length = (ModRM.ofByte b).displacementLength := by
    have hall := congrArg List.length hparts
    have hstop : i.bytes.length = lead.length + 2 + (ModRM.ofByte b).displacementLength :=
      hplace.stop_eq
    simp only [List.length_append, List.length_cons] at hall
    omega
  have hfield := hplace.field_eq
  unfold ModRM.displacementLength at hlength
  unfold MemoryOperand.displacementBytes
  cases hsize : (ModRM.ofByte b).displacementSize? with
  | none =>
      rw [hsize] at hlength hfield
      rw [hfield]
      exact (List.eq_nil_of_length_eq_zero hlength).symm
  | some w =>
      rw [hsize] at hlength hfield
      rw [hfield]
      simp only [Option.map_some, Option.getD_some, Field.bytes, hdrop]
      exact List.take_of_length_le (Nat.le_of_eq hlength)

/-- The prefixes stand in front of the rest. -/
theorem leadingPrefixes_append_drop (encoding : List UInt8) :
    leadingPrefixes encoding ++ encoding.drop (leadingPrefixes encoding).length = encoding := by
  have hfront : leadingPrefixes encoding = encoding.take (leadingPrefixes encoding).length :=
    List.prefix_iff_eq_take.mp (List.takeWhile_prefix _)
  nth_rewrite 1 [hfront]
  exact List.take_append_drop _ _

/-- Such an encoding stands for a jump through a word of the code segment, and its displacement is
    that of the operand. -/
theorem EncodesTableJump.exists_jumpsThrough (h : decode {} code = .ok i)
    (he : EncodesTableJump i.bytes b d) :
    ∃ place, i.JumpsThrough place ∧ place.displacement = signedLittleEndian d
      ∧ d.length = (ModRM.ofByte b).displacementLength
      ∧ place.displacementBytes i.bytes = d
      ∧ place.field.elim 0 Field.length = d.length := by
  rcases decode_indirect h he.parts he.jumps he.throughMemory
    with ⟨place, context, hjump, honly, hword, hcode, hplaced, hbytes⟩
  have hvalue := hplaced.value
  have hlength := hplaced.length_eq
  rw [hbytes] at hvalue hlength
  refine ⟨place, ⟨hjump, honly, ?_, ?_, ?_⟩, hvalue, hlength, hbytes, ?_⟩
  · rw [hplaced.size_eq, hword.mpr he.ofWord]
  · rw [hplaced.override_eq, hcode.mpr he.inCode]
  · rw [hplaced.base_eq, hplaced.index_eq, ModRM.registers_isSome_iff]
    exact he.byRegister
  · rw [hplaced.field_eq, hlength, ModRM.displacementLength]
    cases (ModRM.ofByte b).displacementSize? <;> rfl

/-- A jump through a word of the code segment has such an encoding. -/
theorem Instruction.JumpsThrough.exists_encodes (h : decode {} code = .ok i)
    (hjumps : i.JumpsThrough place) : ∃ b d, EncodesTableJump i.bytes b d := by
  rcases decode_reads h with ⟨p, -, hread⟩
  rw [hjumps.jumps, hjumps.only] at hread
  rcases readOperation_of_jump hread with ⟨b, d, hrest, hreg, hmode⟩
  have hparts : i.bytes = leadingPrefixes i.bytes ++ 0xFF :: b :: d := by
    rw [← hrest, leadingPrefixes_append_drop]
  rcases decode_indirect h hparts hreg hmode
    with ⟨place', context, -, honly, hword, hcode, hplaced, -⟩
  have hsame : place' = place := by
    have heq := hjumps.only
    rw [honly] at heq
    injection heq with heq
    injection heq
  rw [hsame] at hplaced
  refine ⟨b, d, hparts, hcode.mp ?_, hword.mp ?_, hreg, hmode, ?_⟩
  · rw [← hplaced.override_eq, hjumps.inCode]
  · rw [← Option.some.injEq, ← hplaced.size_eq, hjumps.ofWord]
  · rw [← ModRM.registers_isSome_iff, ← hplaced.base_eq, ← hplaced.index_eq]
    exact hjumps.byRegister

/-- The slot that an encoding names. -/
theorem jumpTableSlot?_eq_some_iff_encodes (h : decode {} code = .ok i) {location slot : Address} :
    jumpTableSlot? location i = some slot ↔ ∃ b d, EncodesTableJump i.bytes b d
      ∧ slot = ⟨location.segment, Int32.ofNat (extendedWord d)⟩ := by
  rw [jumpTableSlot?_eq_some_iff]
  constructor
  · rintro ⟨place, hjumps, rfl⟩
    rcases hjumps.exists_encodes h with ⟨b, d, he⟩
    rcases he.exists_jumpsThrough h with ⟨place', hjumps', hvalue, hlength, -⟩
    have hshort : d.length ≤ 2 := hlength ▸ ModRM.displacementLength_le _
    rw [hjumps.unique hjumps', hvalue, signedLittleEndian_and hshort]
    exact ⟨b, d, he, rfl⟩
  · rintro ⟨b, d, he, rfl⟩
    rcases he.exists_jumpsThrough h with ⟨place, hjumps, hvalue, hlength, -⟩
    have hshort : d.length ≤ 2 := hlength ▸ ModRM.displacementLength_le _
    refine ⟨place, hjumps, ?_⟩
    rw [hvalue, signedLittleEndian_and hshort]

/-- The form that is meant has one mode of addressing. -/
theorem namesTable_iff (h : decode {} code = .ok i) {offset : Nat} :
    i.NamesTable offset ↔ ∃ b d, EncodesTableJump i.bytes b d ∧ (ModRM.ofByte b).mode = 2
      ∧ offset = extendedWord d := by
  constructor
  · rintro ⟨place, f, hjumps, hf, htwo, rfl⟩
    rcases hjumps.exists_encodes h with ⟨b, d, he⟩
    rcases he.exists_jumpsThrough h with ⟨place', hjumps', -, hlength, hbytes, hfield⟩
    rw [← hjumps.unique hjumps', MemoryOperand.displacementBytes, hf] at hbytes
    rw [← hjumps.unique hjumps', hf, Option.elim_some, htwo] at hfield
    -- Two bytes of displacement stand for one mode, since there is a register.
    have hmode := (ModRM.displacementLength_eq_two_iff he.byRegister).mp (by omega)
    have hd : f.bytes i.bytes = d := hbytes
    exact ⟨b, d, he, hmode, by rw [extendedWord_of_length hfield.symm, hd]⟩
  · rintro ⟨b, d, he, hmode, rfl⟩
    rcases he.exists_jumpsThrough h with ⟨place, hjumps, -, hlength, hbytes, hfield⟩
    rw [(ModRM.displacementLength_eq_two_iff he.byRegister).mpr hmode] at hlength
    rw [hlength] at hfield
    rw [MemoryOperand.displacementBytes] at hbytes
    cases hf : place.field with
    | none =>
        rw [hf] at hfield
        cases hfield
    | some f =>
        rw [hf] at hfield hbytes
        have hd : f.bytes i.bytes = d := hbytes
        exact ⟨place, f, hjumps, hf, hfield, by rw [extendedWord_of_length hlength, hd]⟩

/-- An instruction names the slot that its encoding gives, whatever the displacement. The slots are
    those of the form that is meant exactly if the encoding is not one of the others, which have a
    displacement of one byte or none. -/
theorem decode_tableSlot (h : decode {} code = .ok i) (location : Address) :
    (∀ slot, jumpTableSlot? location i = some slot ↔ ∃ b d, EncodesTableJump i.bytes b d
        ∧ slot = ⟨location.segment, Int32.ofNat (extendedWord d)⟩)
      ∧ ((∀ slot, jumpTableSlot? location i = some slot ↔ ∃ offset, i.NamesTable offset
          ∧ slot = ⟨location.segment, Int32.ofNat offset⟩)
        ↔ ∀ b d, EncodesTableJump i.bytes b d → (ModRM.ofByte b).mode = 2) := by
  refine ⟨fun slot => jumpTableSlot?_eq_some_iff_encodes h, fun hall b d he => ?_,
    fun hmode slot => ?_⟩
  · -- The slot of the encoding is one that is meant, so the encoding has the mode of that form.
    rcases (hall _).mp ((jumpTableSlot?_eq_some_iff_encodes h).mpr ⟨b, d, he, rfl⟩)
      with ⟨offset, hnames, -⟩
    rcases (namesTable_iff h).mp hnames with ⟨b', d', he', hmode, -⟩
    rw [(he.unique he').1]
    exact hmode
  · rw [jumpTableSlot?_eq_some_iff_encodes h]
    constructor
    · rintro ⟨b, d, he, rfl⟩
      exact ⟨extendedWord d, (namesTable_iff h).mpr ⟨b, d, he, hmode b d he, rfl⟩, rfl⟩
    · rintro ⟨offset, hnames, rfl⟩
      rcases (namesTable_iff h).mp hnames with ⟨b, d, he, -, rfl⟩
      exact ⟨b, d, he, rfl⟩

/-- The jump `jmp word ptr cs:[bx+displacement]`. The displacement stands behind the addressing
    byte and has `length` bytes. -/
def jumpByBase (displacement : Int32) (length : Nat) (encoding : List UInt8) : Instruction where
  operation := .jump
  prefixes := { segment := some .cs }
  operands := [.memory {
    size := some .word
    segmentOverride := some (.segment .cs)
    base := some .bx
    displacement := displacement
    field := some ⟨3, length⟩ }]
  bytes := encoding

/-- With two bytes of displacement the slot is the one that is meant. -/
theorem decode_tableSlot_word :
    let i := jumpByBase (-0x7FFB) 2 [0x2E, 0xFF, 0xA7, 0x05, 0x80]
    decode {} [0x2E, 0xFF, 0xA7, 0x05, 0x80] = .ok i ∧ jumpTableSlot? ⟨0, 0⟩ i = some ⟨0, 0x8005⟩
      ∧ ∀ slot, jumpTableSlot? ⟨0, 0⟩ i = some slot
        ↔ ∃ offset, i.NamesTable offset ∧ slot = ⟨0, Int32.ofNat offset⟩ := by
  intro i
  have h : decode {} [0x2E, 0xFF, 0xA7, 0x05, 0x80] = .ok i := by decide +kernel
  have hencodes : EncodesTableJump i.bytes 0xA7 [0x05, 0x80] := by constructor <;> decide
  refine ⟨h, by decide, (decode_tableSlot h ⟨0, 0⟩).2.mpr fun b d he => ?_⟩
  rw [← (hencodes.unique he).1]
  decide

/-- With one byte of displacement a slot is named as well, but none is meant. -/
theorem decode_tableSlot_byte :
    let i := jumpByBase 0x10 1 [0x2E, 0xFF, 0x67, 0x10]
    decode {} [0x2E, 0xFF, 0x67, 0x10] = .ok i ∧ jumpTableSlot? ⟨0, 0⟩ i = some ⟨0, 0x10⟩
      ∧ ∀ offset, ¬ i.NamesTable offset := by
  refine ⟨by decide +kernel, by decide, ?_⟩
  rintro offset ⟨place, f, hjumps, hf, htwo, -⟩
  -- The only field of the jump has one byte.
  cases hjumps.only
  cases hf
  cases htwo

end Decoded

end Disasm86
