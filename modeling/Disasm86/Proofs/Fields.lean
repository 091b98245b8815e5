import Disasm86.Proofs.Reading
import Mathlib.Data.Nat.Digits.Defs

/-!
# The Fields of an Encoding

An encoding is a header and then the values of its operands. The header is made of the prefixes,
the opcode and the addressing byte if the opcode calls for one, and its length can be told from
the bytes and the opcode maps. Behind it the fields of the operands follow without a gap, in the
order of the operands, and with the last of them the encoding ends. What stands in a field is the
value of its operand, so reading the field again gives the operand back.

None of this is written down in the decoder. It gives a field the position at which it happened to
read, and the maps are free to name the templates in any order. It is true because positions are
only ever moved by reading, and because the operands are read in the order in which they are kept.

What bytes stand for is said without the decoder. `Nat.ofDigits` takes the bytes for digits to the
base 256, the least significant one first, and bit vectors say what it means to extend by a sign.
That the decoder assembles its numbers in the same way is a theorem, not a convention.

`Reader.Places` is a description of one reader that works on a window which stays the same: what
it returns is related to the positions where it starts and where it ends. Putting readers one
behind the other puts their positions one behind the other, so the description passes through
`bind`, and from `Reader.byte` to `readOperation` the proofs follow the definitions.

## Main definitions

* `Field.bytes`: The bytes of an encoding that a field takes up.
* `Field.Tile`: Fields follow each other from one position to another.
* `byteValue`: The number that bytes are the digits of.
* `SignExtends`: A number is what bytes stand for, extended by its sign.
* `Operand.ReadsAs`: An operand is what bytes stand for.
* `opcodeLength`: The number of bytes of an opcode and its addressing byte.
* `headerLength`: The number of bytes in front of the operands.
* `Reader.Places`: What a reader returns, by the positions that it starts and ends at.
* `Laid`: The operands between two positions of a window.

## Theorems

* `littleEndian_eq_byteValue`: The decoder assembles bytes as digits.
* `signExtends_signedLittleEndian`: A signed number is its bytes, extended by the sign.
* `Reader.places_bind`: Positions pass from reader to reader.
* `places_readOperand`, `places_readOperands`: Operands are laid where they are read.
* `places_readOperation`: Behind the prefixes comes the rest of the header, then the operands.
* `scanPrefixes_position`: Scanning ends behind the bytes that are prefixes.
* `decode_fields_tile`: The fields of a decoded instruction tile the bytes behind its header.
-/

namespace Disasm86

/-- The bytes of an encoding that a field takes up. -/
def Field.bytes (f : Field) (encoding : List UInt8) : List UInt8 :=
  (encoding.drop f.start).take f.length

/-- The fields are not empty, each begins where the one before it ends, and together they reach
    from one position to the other. -/
def Field.Tile (start stop : Nat) : List Field → Prop
  | [] => start = stop
  | f :: fs => f.start = start ∧ 0 < f.length ∧ Tile f.stop stop fs

/-- The number whose digits to the base 256 are the bytes, the least significant one first. -/
def byteValue (bs : List UInt8) : Nat := Nat.ofDigits 256 (bs.map UInt8.toNat)

/-- The number is what the bytes stand for, extended by its sign to 32 bits. The sign is the
    highest bit of the last byte. -/
def SignExtends (bs : List UInt8) (value : Int32) : Prop :=
  value.toBitVec = (BitVec.ofNat (8 * bs.length) (byteValue bs)).signExtend 32

/-- The operand is what the bytes stand for. A far address is an offset and then a segment of two
    bytes, both without a sign. No bytes stand for a register. -/
def Operand.ReadsAs (bs : List UInt8) : Operand → Prop
  | .immediate value _ _ => SignExtends bs value
  | .register _ => False
  | .memory place => SignExtends bs place.displacement
  | .relative displacement _ _ => SignExtends bs displacement
  | .pointer segment offset _ => ∃ low high, bs = low ++ high ∧ high.length = 2
      ∧ offset.toNat = byteValue low ∧ segment.toNat = byteValue high

/-- Whether an addressing byte follows the opcode. -/
def Slot.hasAddressing : Slot → Bool
  | .undefined => false
  | .form f => f.needsAddressing
  | .group _ => true

/-- The number of bytes of an opcode and its addressing byte, by what the first byte stands for
    and by the bytes behind it. -/
def Entry.opcodeLength (rest : List UInt8) : Entry → Nat
  | .legacyPrefix => 1
  | .twoByte => 2 + (rest.head?.any fun second => (Opcode.secondary second).hasAddressing).toNat
  | .coprocessor => 2
  | .opcode slot => 1 + slot.hasAddressing.toNat

/-- The number of bytes of the opcode at the front and its addressing byte. -/
def opcodeLength : List UInt8 → Nat
  | [] => 0
  | opcode :: rest => (Opcode.primary opcode).opcodeLength rest

/-- The prefixes that an encoding begins with. -/
def leadingPrefixes (encoding : List UInt8) : List UInt8 :=
  encoding.takeWhile fun b => (legacyPrefix? b).isSome

/-- The number of bytes in front of the operands of an encoding: its prefixes, its opcode and its
    addressing byte. -/
def headerLength (encoding : List UInt8) : Nat :=
  (leadingPrefixes encoding).length + opcodeLength (encoding.drop (leadingPrefixes encoding).length)

/-- Fields that reach up to a position and fields from there on reach as far as both. -/
theorem Field.Tile.append {start mid stop : Nat} {fs gs : List Field} (hf : Tile start mid fs)
    (hg : Tile mid stop gs) : Tile start stop (fs ++ gs) := by
  induction fs generalizing start with
  | nil =>
      rw [show start = mid from hf]
      exact hg
  | cons f fs ih =>
      rcases hf with ⟨hstart, hpos, hrest⟩
      exact ⟨hstart, hpos, ih hrest⟩

/-- So many bytes make a number of so many bits. -/
theorem littleEndian_lt (bs : List UInt8) : littleEndian bs < Nat.pow 256 bs.length := by
  induction bs with
  | nil => decide
  | cons b bs ih =>
      have hb := b.toNat_lt
      have hpow : Nat.pow 256 (b :: bs).length = Nat.pow 256 bs.length * 256 := rfl
      rw [littleEndian, hpow]
      omega

/-- The decoder adds a byte to 256 times the bytes behind it, as digits are added up. -/
theorem littleEndian_eq_byteValue (bs : List UInt8) : littleEndian bs = byteValue bs := by
  induction bs with
  | nil => rfl
  | cons b bs ih =>
      unfold byteValue at ih ⊢
      rw [littleEndian, List.map_cons, Nat.ofDigits_cons, ih]

/-- What the decoder makes of a field is the sign extension of what its bytes stand for. -/
theorem signExtends_signedLittleEndian (bs : List UInt8) :
    SignExtends bs (signedLittleEndian bs) := by
  unfold SignExtends signedLittleEndian BitVec.signExtend
  rw [BitVec.toInt_ofNat', ← littleEndian_eq_byteValue]
  rfl

namespace Reader

variable {α β : Type} {code : List UInt8} {a : Nat} {P : α → Nat → Prop} {Q : β → Nat → Prop}

/-- From position `a` of the window `code` on, the reader returns what is related to the position
    where it ends. It does not leave the window. This is what is proved of the readers one by one,
    so that fields can be compared with the bytes that stand in them. -/
def Places (code : List UInt8) (a : Nat) (P : α → Nat → Prop) (r : Reader α) : Prop :=
  ∀ x c, r ⟨a, code.drop a⟩ = .ok (x, c) → c.rest = code.drop c.position ∧ P x c.position

theorem places_pure {x : α} (h : P x a) : Places code a P (pure x) := by
  intro y c hread
  cases hread
  exact ⟨rfl, h⟩

theorem places_throw (e : DecodeError) : Places code a P (throw e) := by
  intro x c hread
  cases hread

/-- The second reader starts where the first one has ended. -/
theorem places_bind {r : Reader α} {f : α → Reader β} (hr : Places code a P r)
    (hf : ∀ x b, P x b → Places code b Q (f x)) : Places code a Q (r >>= f) := by
  intro y c' hread
  rw [bind_apply] at hread
  cases hx : r ⟨a, code.drop a⟩ with
  | error e =>
      rw [hx] at hread
      cases hread
  | ok p =>
      -- The cursor that the first one leaves is again a position of the same window.
      rcases p with ⟨x, ⟨b, rest⟩⟩
      rcases hr x _ hx with ⟨hrest, hP⟩
      simp only at hrest hP
      rw [hx, hrest] at hread
      exact hf x b hP y c' hread

theorem places_map {r : Reader α} {g : α → β} (hr : Places code a P r)
    (h : ∀ x b, P x b → Q (g x) b) : Places code a Q (r >>= fun x => pure (g x)) :=
  places_bind hr fun x b hx => places_pure (h x b hx)

/-- The byte is the one at the position, and the reader ends behind it. -/
theorem places_byte :
    Places code a (fun b c => code.drop a = b :: code.drop c ∧ c = a + 1) byte := by
  intro x c hread
  unfold byte at hread
  cases hrest : code.drop a with
  | nil =>
      simp only [hrest] at hread
      cases hread
  | cons b bs =>
      simp only [hrest] at hread
      cases hread
      -- What is left of the window is the window from the next position on.
      have hbs : bs = code.drop (a + 1) := by
        rw [← List.drop_drop, hrest]
        rfl
      exact ⟨hbs, by rw [← hbs], rfl⟩

/-- By induction on the number of bytes. The window is the same for all of them, and only the
    position moves. -/
theorem places_take (n : Nat) : Places code a
    (fun bs c => bs = (code.drop a).take n ∧ bs.length = n ∧ c = a + n) (take n) := by
  induction n generalizing a with
  | zero => exact places_pure ⟨rfl, rfl, rfl⟩
  | succ n ih =>
      refine places_bind places_byte ?_
      rintro b c ⟨hdrop, rfl⟩
      refine places_map ih ?_
      rintro bs c ⟨hbs, hlen, rfl⟩
      refine ⟨?_, ?_, by omega⟩
      · rw [hdrop, List.take_succ_cons, hbs]
      · rw [List.length_cons, hlen]

/-- A field tells where its bytes have been read. -/
theorem places_field (n : Nat) : Places code a
    (fun x c => x.2 = ⟨a, n⟩ ∧ x.1 = x.2.bytes code ∧ x.1.length = n ∧ c = a + n) (field n) := by
  have hposition : Places code a (fun x c => x = a ∧ c = a) position := by
    intro x c hread
    cases hread
    exact ⟨rfl, rfl, rfl⟩
  refine places_bind hposition ?_
  rintro _ _ ⟨rfl, rfl⟩
  refine places_map (places_take n) ?_
  rintro bs c ⟨hbs, hlen, rfl⟩
  exact ⟨rfl, hbs, hlen, rfl⟩

/-- A number stands where it is read, and its bytes stand for it. -/
theorem places_signed (size : OperandSize) : Places code a
    (fun x c => x.2.start = a ∧ 0 < x.2.length ∧ x.2.stop = c
      ∧ SignExtends (x.2.bytes code) x.1) (signed size) := by
  refine places_map (places_field size.encodedBytes) ?_
  rintro ⟨bs, f⟩ c ⟨hf, hbs, -, rfl⟩
  simp only at hf hbs
  subst hf
  have hpos : 0 < size.encodedBytes := by
    cases size <;> decide
  refine ⟨rfl, hpos, rfl, ?_⟩
  rw [hbs]
  exact signExtends_signedLittleEndian _

end Reader

open Reader

/-- The fields of the operands fill a window from one position to another, and what stands in each
    of them is the operand. Operands without a field take up nothing. -/
structure Laid (code : List UInt8) (start stop : Nat) (xs : List Operand) : Prop where
  tile : Field.Tile start stop (xs.filterMap Operand.field?)
  held : ∀ x ∈ xs, ∀ f, x.field? = some f → x.ReadsAs (f.bytes code)

section Operands

variable {code : List UInt8} {a mid stop : Nat} {x : Operand} {xs ys : List Operand} {f : Field}

/-- Operands without fields take up no room. -/
theorem laid_of_no_fields (h : ∀ x ∈ xs, x.field? = none) : Laid code a a xs where
  tile := by
    rw [List.filterMap_eq_nil_iff.mpr h]
    exact rfl
  held := by
    intro x hx f hf
    rw [h x hx] at hf
    cases hf

/-- A single operand with a field takes up that field. -/
theorem laid_of_field (hfield : x.field? = some f) (hstart : f.start = a) (hpos : 0 < f.length)
    (hstop : f.stop = stop) (hreads : x.ReadsAs (f.bytes code)) : Laid code a stop [x] where
  tile := by
    rw [List.filterMap_cons_some hfield]
    exact ⟨hstart, hpos, hstop⟩
  held := by
    intro y hy g hg
    rw [List.mem_singleton.mp hy] at hg ⊢
    rw [hfield, Option.some.injEq] at hg
    rw [← hg]
    exact hreads

/-- Operands one behind the other. Their fields are in the same order as they are. -/
theorem Laid.append (hx : Laid code a mid xs) (hy : Laid code mid stop ys) :
    Laid code a stop (xs ++ ys) where
  tile := by
    rw [List.filterMap_append]
    exact hx.tile.append hy.tile
  held := by
    intro z hz
    rcases List.mem_append.mp hz with hz | hz
    · exact hx.held z hz
    · exact hy.held z hz

/-- A register, or a constant that the opcode implies, stands in no field. -/
theorem places_fieldless (h : x.field? = none) :
    Places code a (fun x c => Laid code a c [x]) (pure x) := by
  refine places_pure (laid_of_no_fields fun y hy => ?_)
  rw [List.mem_singleton.mp hy]
  exact h

/-- An operand that is made of a number and of its field. -/
theorem places_number (size : OperandSize) (g : Int32 × Field → Operand)
    (hfield : ∀ p, (g p).field? = some p.2)
    (hreads : ∀ p bs, SignExtends bs p.1 → (g p).ReadsAs bs) :
    Places code a (fun x c => Laid code a c [x]) (signed size >>= fun p => pure (g p)) := by
  refine places_map (places_signed size) ?_
  rintro p c ⟨hstart, hpos, hstop, hextends⟩
  exact laid_of_field (hfield p) hstart hpos hstop (hreads p _ hextends)

/-- The memory operands that have the displacement and the field are laid. -/
theorem places_readDisplacement (size : Option OperandSize) :
    Places code a (fun p c => ∀ m : MemoryOperand, m.displacement = p.1 → m.field = p.2 →
      Laid code a c [.memory m]) (readDisplacement size) := by
  cases size with
  | none =>
      refine places_pure fun m _ hfield => laid_of_no_fields fun y hy => ?_
      rw [List.mem_singleton.mp hy]
      exact hfield
  | some size =>
      refine places_map (places_signed size) ?_
      rintro p c ⟨hstart, hpos, hstop, hextends⟩ m hdisplacement hfield
      refine laid_of_field hfield hstart hpos hstop ?_
      rw [← hdisplacement] at hextends
      exact hextends

/-- The field of an operand in memory is that of its displacement. -/
theorem places_readMemory (context : DecodeContext) (m : ModRM) (size : Option OperandSize) :
    Places code a (fun x c => Laid code a c [x]) (readMemory context m size) := by
  unfold readMemory
  split
  · -- Wide addresses are refused, so nothing is read behind the check.
    exact places_bind (places_throw (P := fun _ _ => False) _) fun _ _ h => h.elim
  · exact places_map (places_readDisplacement _) fun p c h => h _ rfl rfl

/-- A far address has one field for both of its parts. -/
theorem places_readFarPointer (context : DecodeContext) :
    Places code a (fun x c => Laid code a c [x]) (readFarPointer context) := by
  unfold readFarPointer
  generalize hoffset : (if context.operandSize = .dword then 4 else 2) = offsetBytes
  have hfour : offsetBytes ≤ 4 := by
    rw [← hoffset]
    split <;> decide
  refine places_map (places_field _) ?_
  rintro ⟨bs, f⟩ c ⟨hf, hbs, hlen, rfl⟩
  simp only at hf hbs hlen
  subst hf
  refine laid_of_field rfl rfl (by simp only; omega) rfl ?_
  rw [← hbs]
  -- Neither part has more bytes than the number that it is kept as.
  have hlow : (bs.take offsetBytes).length ≤ 4 := by
    rw [List.length_take]
    omega
  have hhigh : (bs.drop offsetBytes).length = 2 := by
    rw [List.length_drop, hlen]
    omega
  have hlowLt := littleEndian_lt (bs.take offsetBytes)
  have hhighLt := littleEndian_lt (bs.drop offsetBytes)
  have hfits : Nat.pow 256 (bs.take offsetBytes).length ≤ Nat.pow 256 4 :=
    Nat.pow_le_pow_right (by decide) hlow
  rw [hhigh] at hhighLt
  refine ⟨bs.take offsetBytes, bs.drop offsetBytes, (List.take_append_drop _ _).symm, hhigh, ?_, ?_⟩
  · rw [← littleEndian_eq_byteValue]
    exact UInt32.toNat_ofNat_of_lt' (Nat.lt_of_lt_of_le hlowLt hfits)
  · rw [← littleEndian_eq_byteValue]
    exact UInt16.toNat_ofNat_of_lt' hhighLt

/-- One case for each template: what is read from behind the header stands in a field, and the
    rest comes out of the header. -/
theorem places_readOperand (context : DecodeContext) (opcode : UInt8) (m : ModRM) (t : Template) :
    Places code a (fun x c => Laid code a c [x]) (readOperand context opcode m t) := by
  cases t with
  | place width =>
      rw [readOperand, readPlace]
      split
      · exact places_fieldless rfl
      · exact places_readMemory context m _
  | register width => exact places_fieldless rfl
  | segment =>
      unfold readOperand
      cases SegmentRegister.ofNumber? m.reg with
      | some r => exact places_fieldless rfl
      | none => exact places_throw _
  | memory =>
      rw [readOperand]
      split
      · exact places_throw _
      · exact places_readMemory context m _
  | farMemory =>
      rw [readOperand]
      split
      · exact places_throw _
      · exact places_readMemory context m _
  | immediate width => exact places_number _ _ (fun _ => rfl) fun _ _ h => h
  | shortImmediate => exact places_number _ _ (fun _ => rfl) fun _ _ h => h
  | relative width => exact places_number _ _ (fun _ => rfl) fun _ _ h => h
  | farPointer => exact places_readFarPointer context
  | offset width =>
      rw [readOperand, readOffset]
      split
      · exact places_bind (places_throw (P := fun _ _ => False) _) fun _ _ h => h.elim
      · exact places_number _ _ (fun _ => rfl) fun _ _ h => h
  | fixed r => exact places_fieldless rfl
  | fixedWide r => exact places_fieldless rfl
  | constant value => exact places_fieldless rfl

/-- Operands are laid in the order in which they are read, which is that of the templates. -/
theorem places_readOperands (context : DecodeContext) (opcode : UInt8) (m : ModRM)
    (ts : List Template) :
    Places code a (fun xs c => Laid code a c xs) (readOperands context opcode m ts) := by
  induction ts generalizing a with
  | nil => exact places_pure (laid_of_no_fields fun x hx => by cases hx)
  | cons t ts ih =>
      refine places_bind (places_readOperand context opcode m t) fun x b hx => ?_
      exact places_map ih fun xs c hxs => hx.append hxs

theorem places_form (context : DecodeContext) (opcode : UInt8) (m : ModRM) (f : Form) :
    Places code a (fun x c => Laid code a c x.2)
      (readOperands context opcode m f.operands >>= fun xs => pure (f.operation, xs)) :=
  places_map (places_readOperands context opcode m f.operands) fun _ _ h => h

theorem places_readModRM : Places code a (fun _ c => c = a + 1) readModRM :=
  places_map places_byte fun _ _ h => h.2

/-- The operands follow the addressing byte, if there is one. -/
theorem places_readSlot (context : DecodeContext) (opcode last : UInt8) (slot : Slot) :
    Places code a (fun x c => Laid code (a + slot.hasAddressing.toNat) c x.2)
      (readSlot context opcode last slot) := by
  cases slot with
  | undefined => exact places_throw _
  | form f =>
      simp only [readSlot, Slot.hasAddressing]
      -- If the form asks for no addressing byte, the operands follow the opcode.
      by_cases haddressing : f.needsAddressing = true
      · rw [if_pos haddressing, haddressing]
        refine places_bind places_readModRM ?_
        rintro m _ rfl
        exact places_form context opcode m f
      · rw [if_neg haddressing, Bool.eq_false_iff.mpr haddressing]
        refine places_bind (places_pure (P := fun _ c => c = a) rfl) ?_
        rintro m _ rfl
        exact places_form context opcode m f
  | group members =>
      unfold readSlot
      refine places_bind places_readModRM ?_
      rintro m _ rfl
      cases members m.reg with
      | none => exact places_throw _
      | some f => exact places_form context opcode m f

/-- The coprocessor stack is named by the addressing byte, so there is no field. -/
theorem StackOperands.field?_eq_none {rm : Fin 8} {operands : StackOperands}
    (h : x ∈ operands.operands rm) : x.field? = Option.none := by
  revert x
  cases operands <;> simp [StackOperands.operands, Operand.field?]

/-- A coprocessor instruction has an addressing byte and perhaps a place in memory. -/
theorem places_readEscape (context : DecodeContext) (escape : UInt8) :
    Places code a (fun x c => Laid code (a + 1) c x.2) (readEscape context escape) := by
  unfold readEscape
  refine places_bind places_readModRM ?_
  rintro m _ rfl
  -- The addressing byte selects registers of the stack or a place in memory.
  split
  · split
    · exact places_throw _
    · exact places_pure (laid_of_no_fields fun _ => StackOperands.field?_eq_none)
  · split
    · exact places_throw _
    · exact places_map (places_readMemory context m _) fun _ _ h => h

/-- Behind the prefixes the header goes on with the opcode and the addressing byte, and then come
    the operands. -/
theorem places_readOperation (context : DecodeContext) :
    Places code a (fun x c => Laid code (a + opcodeLength (code.drop a)) c x.2)
      (readOperation context) := by
  unfold readOperation
  refine places_bind places_byte ?_
  rintro opcode _ ⟨hopcode, rfl⟩
  -- How long the opcode is depends on the entry of its first byte, as reading on does.
  rw [hopcode, opcodeLength]
  cases Opcode.primary opcode with
  | legacyPrefix => exact places_throw _
  | twoByte =>
      refine places_bind places_byte ?_
      rintro second _ ⟨hsecond, rfl⟩
      rw [Entry.opcodeLength, hsecond, List.head?_cons, Option.any_some, ← Nat.add_assoc]
      exact places_readSlot context opcode second _
  | coprocessor => exact places_readEscape context opcode
  | opcode slot =>
      rw [Entry.opcodeLength, ← Nat.add_assoc]
      exact places_readSlot context opcode opcode slot

end Operands

/-- Scanning stops behind the prefixes that the bytes begin with. -/
theorem scanPrefixes_position {seen p : Prefixes} {position : Nat} {code : List UInt8} {c : Cursor}
    (h : scanPrefixes seen position code = .ok (p, c)) :
    c = ⟨position + (leadingPrefixes code).length, code.drop (leadingPrefixes code).length⟩ := by
  -- Scanning and `leadingPrefixes` both go on as long as the byte is a prefix.
  induction code generalizing seen position with
  | nil =>
      cases h
      rfl
  | cons b bs ih =>
      rw [scanPrefixes] at h
      unfold leadingPrefixes at ih ⊢
      rw [List.takeWhile_cons]
      cases hb : legacyPrefix? b with
      | none =>
          simp only [hb] at h
          cases h
          rfl
      | some found =>
          cases hadd : seen.add? found with
          | none =>
              simp only [hb, hadd] at h
              cases h
          | some seen' =>
              simp only [hb, hadd] at h
              rw [ih h, Option.isSome_some, if_pos rfl, List.length_cons, List.drop_succ_cons,
                Nat.add_right_comm, Nat.add_assoc position]

section Decode

variable {context : DecodeContext} {code : List UInt8} {i : Instruction}

/-- The fields of a decoded instruction fill its encoding from the header to the end, one behind the
    other and none of them empty, and reading the bytes of a field again gives the operand that the
    field belongs to. -/
theorem decode_fields_tile (h : decode context code = .ok i) :
    Field.Tile (headerLength i.bytes) i.length i.fields
      ∧ ∀ x ∈ i.operands, ∀ f, x.field? = some f → x.ReadsAs (f.bytes i.bytes) := by
  -- The bytes of the instruction alone are decoded to the same.
  have hself : decode context i.bytes = .ok i := by
    rw [← List.append_nil i.bytes]
    exact (decode_eq_ok h).2.2.2.1 []
  rcases decode_eq_ok_iff.mp hself with ⟨p, c, read, c', hscan, hread, hi⟩
  rw [scanPrefixes_position hscan, Nat.zero_add] at hread
  have hlaid := (places_readOperation (context.under p) read c' hread).2
  have hoperands : i.operands = read.2 := by
    rw [← hi]
    rfl
  -- Reading ends inside the window, and the instruction keeps no more than has been read.
  have hend : c'.position = i.length := by
    rcases (forward_readOperation _).taken hread with ⟨used, -, hrest, hpos, -⟩
    have hwindow := congrArg List.length hrest
    have hkept := congrArg (fun j : Instruction => j.length) hi
    simp only [List.length_drop, List.length_append] at hwindow
    simp only [Instruction.length, Instruction.ofEncoding, List.length_take] at hkept ⊢
    have hfront : (leadingPrefixes i.bytes).length ≤ i.bytes.length :=
      (List.takeWhile_sublist _).length_le
    simp only at hpos
    omega
  rw [← hend, Instruction.fields, hoperands, headerLength]
  exact ⟨hlaid.tile, hlaid.held⟩

/-- An addition to a word of memory under a segment prefix: the opcode and the addressing byte are
    followed by a displacement and then by a number, both of which have a sign. A byte that does
    not belong to the instruction stands behind. -/
def addToMemory : List UInt8 := [0x2E, 0x81, 0x87, 0xFE, 0xFF, 0x34, 0x92, 0x90]

/-- A jump to another segment: the opcode is followed by an offset and a segment. -/
def farJump : List UInt8 := [0xEA, 0x78, 0x56, 0x34, 0x92]

/-- The displacement of the addition is -2 and its number is `0x9234`, which is negative as a
    number of 16 bits. The parts of the far address have no sign. -/
theorem decode_fields_tile_addToMemory :
    (∃ i m, decode {} addToMemory = .ok i ∧ headerLength i.bytes = 3 ∧ i.length = 7
      ∧ i.fields = [⟨3, 2⟩, ⟨5, 2⟩]
      ∧ i.operands = [.memory m, .immediate (0x9234 - 0x10000) .word (some ⟨5, 2⟩)]
      ∧ m.displacement = -2
      ∧ Field.Tile (headerLength i.bytes) i.length i.fields
      ∧ ∀ x ∈ i.operands, ∀ f, x.field? = some f → x.ReadsAs (f.bytes i.bytes))
    ∧ ∃ i, decode {} farJump = .ok i ∧ i.operands = [.pointer 0x9234 0x5678 ⟨1, 4⟩]
      ∧ Field.Tile (headerLength i.bytes) i.length i.fields
      ∧ ∀ x ∈ i.operands, ∀ f, x.field? = some f → x.ReadsAs (f.bytes i.bytes) := by
  -- Both encodings are decoded by evaluation, and the theorem is applied to the outcome.
  have hadd : decode {} addToMemory = .ok
      { operation := .arithmetic .add
        prefixes := { segment := some .cs }
        operands := [.memory { size := some .word, segmentOverride := some (.segment .cs)
                               base := some (.general .word 3), displacement := -2
                               field := some ⟨3, 2⟩ },
          .immediate (0x9234 - 0x10000) .word (some ⟨5, 2⟩)]
        bytes := addToMemory.take 7 } := by
    decide +kernel
  have hjump : decode {} farJump = .ok
      { operation := .jumpFar, prefixes := {}, operands := [.pointer 0x9234 0x5678 ⟨1, 4⟩]
        bytes := farJump } := by
    decide +kernel
  exact ⟨⟨_, _, hadd, by decide +kernel, rfl, rfl, rfl, rfl, decode_fields_tile hadd⟩,
    ⟨_, hjump, rfl, decode_fields_tile hjump⟩⟩

end Decode

end Disasm86
