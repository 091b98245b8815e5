import Disasm86.Proofs.Extent

/-!
# Reading Forward

Decoding looks at the bytes of the instruction it finds and at no other. The decoder
is not written that way: it is handed a whole window and nothing stops it from
looking further, so this has to be proved of it.

`Reader.Forward` is the property of one reader. When it succeeds, it has taken a front
part of the bytes that were left, no more than a given number, and it would have
succeeded in the same way whatever came behind that part. When it fails, it has run
out of bytes, or it would fail in the same way with more of them; and it does not run
out if the given number is there. All of this passes through `bind`, where the numbers
add up, so a reader that is built from forward readers is forward, and `Reader.byte` is
the only reader that touches the input. Everything from `Reader.take` to
`readOperation` follows in the order in which it is defined.

Prefixes are scanned outside of the readers, and scanning them is not forward: at the
end of the bytes it stops because nothing is left, and with more bytes it would go on.
It is forward once a byte that is no prefix has been seen, and a reader that comes
behind it has to see one.

## Main definitions

* `Reader.Forward`: A reader takes a short front part and ignores the rest.

## Theorems

* `Reader.forward_bind`: Forward readers can be put one behind the other.
* `forward_readOperation`: Reading an operation is forward.
* `scanPrefixes_append`: Scanning prefixes is forward in front of an opcode.
* `decode_eq_ok_iff`, `decode_eq_error_iff`: Decoding scans prefixes and then reads an
  operation.
* `decode_eq_ok`: A decoded instruction is a front part of the window, and is decoded
  from every window with that front.
* `decode_append`: More bytes do not change a decoded instruction.
-/

namespace Disasm86

namespace Reader

variable {α β : Type}

/-- The reader takes a front part of the bytes that are left, `n` bytes at most. What is
    behind that part has no influence on the outcome, and neither has anything else that
    comes behind the bytes unless the reader has run out of them. -/
structure Forward (n : Nat) (r : Reader α) : Prop where
  taken : ∀ {c x c'}, r c = .ok (x, c') → ∃ used, used.length ≤ n ∧ c.rest = used ++ c'.rest
    ∧ c'.position = c.position + used.length
    ∧ ∀ more, r ⟨c.position, used ++ more⟩ = .ok (x, ⟨c'.position, more⟩)
  refused : ∀ {c e}, r c = .error e → e ≠ .truncated →
    ∀ more, r ⟨c.position, c.rest ++ more⟩ = .error e
  enough : ∀ {c}, n ≤ c.rest.length → r c ≠ .error .truncated

variable {m n : Nat}

/-- A bound may be given away. The readers of different templates are brought to the bound of their
    slot in this way. -/
theorem Forward.mono {r : Reader α} (h : Forward m r) (hle : m ≤ n) : Forward n r where
  taken := by
    intro c x c' hc
    rcases h.taken hc with ⟨used, hlen, hrest⟩
    exact ⟨used, Nat.le_trans hlen hle, hrest⟩
  refused := h.refused
  enough := fun hroom => h.enough (Nat.le_trans hle hroom)

/-- A reader that only returns takes nothing, so anything may follow. -/
theorem forward_pure (x : α) : Forward 0 (pure x : Reader α) where
  taken := by
    intro c y c' h
    cases h
    exact ⟨[], Nat.le_refl 0, rfl, rfl, fun more => rfl⟩
  refused := by
    intro c e h
    cases h
  enough := by
    intro c _ h
    cases h

/-- An error that is not for want of bytes comes whatever follows. -/
theorem forward_throw {e : DecodeError} (he : e ≠ .truncated) (n : Nat) :
    Forward n (throw e : Reader α) where
  taken := by
    intro c x c' h
    cases h
  refused := by
    intro c e' h _ more
    cases h
    rfl
  enough := by
    intro c _ h
    cases h
    exact he rfl

theorem bind_apply (r : Reader α) (f : α → Reader β) (c : Cursor) :
    (r >>= f) c = (r c).bind fun p => f p.1 p.2 := rfl

/-- Two readers one behind the other take what both take. The second starts where the first has
    stopped, so the bytes they use are joined and the bounds are added. -/
theorem forward_bind {r : Reader α} {f : α → Reader β} (hr : Forward m r)
    (hf : ∀ x, Forward n (f x)) : Forward (m + n) (r >>= f) where
  taken := by
    intro c y c'' h
    rw [bind_apply] at h
    cases hc : r c with
    | error e =>
        rw [hc] at h
        cases h
    | ok p =>
        rcases p with ⟨x, c'⟩
        rw [hc] at h
        rcases hr.taken hc with ⟨used, hlen, hrest, hpos, hmore⟩
        rcases (hf x).taken h with ⟨used', hlen', hrest', hpos', hmore'⟩
        -- The first reader finds the bytes of the second behind its own, whatever comes behind
        -- those.
        refine ⟨used ++ used', ?_, ?_, ?_, fun more => ?_⟩
        · rw [List.length_append]
          omega
        · rw [hrest, hrest', List.append_assoc]
        · rw [hpos', hpos, List.length_append]
          omega
        · rw [bind_apply, List.append_assoc, hmore]
          exact hmore' more
  refused := by
    intro c e h he more
    rw [bind_apply] at h ⊢
    cases hc : r c with
    | error e' =>
        rw [hc] at h
        cases h
        rw [hr.refused hc he more]
        rfl
    | ok p =>
        -- The first reader takes the same bytes again and leaves what has been added.
        rcases p with ⟨x, c'⟩
        rw [hc] at h
        rcases hr.taken hc with ⟨used, -, hrest, -, hmore⟩
        rw [hrest, List.append_assoc, hmore]
        exact (hf x).refused h he more
  enough := by
    intro c hroom h
    rw [bind_apply] at h
    cases hc : r c with
    | error e =>
        rw [hc] at h
        cases h
        exact hr.enough (by omega) hc
    | ok p =>
        rcases p with ⟨x, c'⟩
        rw [hc] at h
        rcases hr.taken hc with ⟨used, hlen, hrest, -⟩
        rw [hrest, List.length_append] at hroom
        -- The first has used no more than its share, so enough is left for the second.
        have hleft : n ≤ c'.rest.length := by omega
        exact (hf x).enough hleft h

theorem forward_map {r : Reader α} (hr : Forward n r) (f : α → β) :
    Forward n (r >>= fun x => pure (f x)) :=
  forward_bind hr fun x => forward_pure (f x)

/-- A single byte. It is the only reader that can run out of bytes. -/
theorem forward_byte : Forward 1 byte where
  taken := by
    intro c x c' h
    rcases c with ⟨position, rest⟩
    cases rest with
    | nil => cases h
    | cons b bs =>
        cases h
        exact ⟨[x], Nat.le_refl 1, rfl, rfl, fun more => rfl⟩
  refused := by
    intro c e h he
    rcases c with ⟨position, rest⟩
    cases rest with
    | nil =>
        cases h
        exact absurd rfl he
    | cons b bs => cases h
  enough := by
    intro c hroom h
    rcases c with ⟨position, rest⟩
    cases rest with
    -- With a byte there is nothing to run out of.
    | nil => exact Nat.not_succ_le_zero 0 hroom
    | cons b bs => cases h

/-- By induction on the number of bytes, one at a time. -/
theorem forward_take (n : Nat) : Forward n (take n) := by
  induction n with
  | zero => exact forward_pure []
  | succ n ih =>
      exact (forward_bind forward_byte fun b => forward_map ih (b :: ·)).mono
        (Nat.le_of_eq (Nat.add_comm 1 n))

theorem forward_position : Forward 0 position where
  taken := by
    intro c x c' h
    cases h
    exact ⟨[], Nat.le_refl 0, rfl, rfl, fun more => rfl⟩
  refused := by
    intro c e h
    cases h
  enough := by
    intro c _ h
    cases h

/-- A field notes where it starts and then takes its bytes. -/
theorem forward_field (n : Nat) : Forward n (field n) :=
  (forward_bind forward_position fun start =>
    forward_map (forward_take n) fun bs => (bs, Field.mk start n)).mono
      (Nat.le_of_eq (Nat.zero_add n))

theorem forward_signed (size : OperandSize) : Forward size.encodedBytes (signed size) :=
  forward_map (forward_field _) _

/-- A number of a width takes no more bytes than the width can ask for. -/
theorem forward_signed_width (width : Width) (inForce : OperandSize) :
    Forward width.extent (signed (width.size inForce)) :=
  (forward_signed _).mono (width.encodedBytes_size_le inForce)

end Reader

open Reader

/-- An addressing byte asks for two bytes of displacement at most, by its mode. -/
theorem forward_readDisplacement (m : ModRM) :
    Forward 2 (readDisplacement m.displacementSize?) := by
  have hsigned : ∀ size : OperandSize, size.encodedBytes ≤ 2 →
      Forward 2 (readDisplacement (some size)) := fun size hsize =>
    (forward_map (forward_signed size) _).mono hsize
  unfold ModRM.displacementSize?
  -- One case for each mode. The first mode has a displacement for one of its eight places only.
  split
  · split
    · exact hsigned .word (Nat.le_refl 2)
    · exact (forward_pure _).mono (Nat.zero_le 2)
  · exact hsigned .byte (by decide)
  · exact hsigned .word (Nat.le_refl 2)
  · exact (forward_pure _).mono (Nat.zero_le 2)

/-- Besides the displacement nothing is read. The address size may be refused before that, which
    needs no bytes. -/
theorem forward_readMemory (context : DecodeContext) (m : ModRM) (size : Option OperandSize) :
    Forward 2 (readMemory context m size) := by
  unfold readMemory
  split
  · exact forward_bind (m := 0) (n := 2) (forward_throw (by decide) 0) fun _ =>
      forward_map (forward_readDisplacement m) _
  · exact forward_map (forward_readDisplacement m) _

theorem forward_readOffset (context : DecodeContext) (size : OperandSize) :
    Forward 2 (readOffset context size) := by
  unfold readOffset
  split
  · exact forward_bind (m := 0) (n := 2) (forward_throw (by decide) 0) fun _ =>
      forward_map (forward_signed .word) _
  · exact forward_map (forward_signed .word) _

theorem forward_readPlace (context : DecodeContext) (m : ModRM) (size : OperandSize) :
    Forward 2 (readPlace context m size) := by
  unfold readPlace
  split
  · exact (forward_pure _).mono (Nat.zero_le 2)
  · exact forward_readMemory context m _

/-- The segment takes two bytes and the offset four at most. -/
theorem forward_readFarPointer (context : DecodeContext) :
    Forward 6 (readFarPointer context) := by
  have hsize : (if context.operandSize = .dword then 4 else 2) + 2 ≤ 6 := by
    split <;> decide
  exact (forward_map (forward_field _) _).mono hsize

/-- One case for each template: what the opcode fixes reads nothing, and the other
    operands are read by the readers above. -/
theorem forward_readOperand (context : DecodeContext) (opcode : UInt8) (m : ModRM)
    (t : Template) : Forward t.extent (readOperand context opcode m t) := by
  cases t with
  | place width => exact forward_readPlace context m _
  | register width => exact forward_pure _
  | segment =>
      unfold readOperand
      cases SegmentRegister.ofNumber? m.reg with
      | some r => exact forward_pure _
      | none => exact forward_throw (by nofun) _
  | memory =>
      rw [readOperand]
      split
      · exact forward_throw (by nofun) _
      · exact forward_readMemory context m _
  | farMemory =>
      rw [readOperand]
      split
      · exact forward_throw (by nofun) _
      · exact forward_readMemory context m _
  | immediate width => exact forward_map (forward_signed_width width _) _
  | shortImmediate => exact forward_map (forward_signed .byte) _
  | relative width => exact forward_map (forward_signed_width width _) _
  | farPointer => exact forward_readFarPointer context
  | offset width => exact forward_readOffset context _
  | fixed r => exact forward_pure _
  | fixedWide r => exact forward_pure _
  | constant value => exact forward_pure _

/-- The operands of a form, by induction on the templates. Their bounds add up. -/
theorem forward_readOperands (context : DecodeContext) (opcode : UInt8) (m : ModRM)
    (ts : List Template) :
    Forward (Template.extents ts) (readOperands context opcode m ts) := by
  induction ts with
  | nil => exact forward_pure []
  | cons t ts ih =>
      exact forward_bind (forward_readOperand context opcode m t) fun operand =>
        forward_map ih (operand :: ·)

theorem forward_readModRM : Forward 1 readModRM :=
  forward_map forward_byte _

/-- A slot takes no more than what has been checked of it as an entry of the map. -/
theorem forward_readSlot (context : DecodeContext) (opcode last : UInt8) {slot : Slot} {n : Nat}
    (hslot : slot.isWithin n = true) : Forward n (readSlot context opcode last slot) := by
  cases slot with
  | undefined => exact forward_throw (by nofun) _
  | form f =>
      have hread := fun m =>
        forward_map (forward_readOperands context opcode m f.operands) ((f.operation, ·))
      have hextent : f.extent ≤ n := of_decide_eq_true hslot
      unfold Form.extent at hextent
      simp only [readSlot]
      by_cases haddressing : f.needsAddressing = true
      · rw [if_pos haddressing]
        rw [haddressing] at hextent
        exact (forward_bind forward_readModRM hread).mono hextent
      · rw [if_neg haddressing]
        exact (forward_bind (forward_pure default) hread).mono (by omega)
  | group members =>
      -- The addressing byte comes first here, and selects the member that the rest is read by.
      simp only [Slot.isWithin, Bool.and_eq_true, decide_eq_true_eq, List.all_eq_true] at hslot
      rcases hslot with ⟨hone, hmembers⟩
      obtain ⟨k, rfl⟩ : ∃ k, n = 1 + k := ⟨n - 1, by omega⟩
      unfold readSlot
      refine forward_bind forward_readModRM fun m => ?_
      cases hm : members m.reg with
      | none => exact forward_throw (by nofun) _
      | some f =>
          have hf := hmembers m.reg (List.mem_finRange _)
          simp only [hm, Option.all_some, decide_eq_true_eq] at hf
          exact (forward_map (forward_readOperands context opcode m f.operands) _).mono (by omega)

/-- An escape has an addressing byte and perhaps a displacement. -/
theorem forward_readEscape (context : DecodeContext) (escape : UInt8) :
    Forward 3 (readEscape context escape) := by
  unfold readEscape
  refine forward_bind forward_readModRM (n := 2) fun m => ?_
  split
  · split
    · exact forward_throw (by nofun) _
    · exact (forward_pure _).mono (Nat.zero_le 2)
  · split
    · exact forward_throw (by nofun) _
    · exact forward_map (forward_readMemory context m _) _

/-- Reading what stands behind the prefixes is forward, and takes eight bytes at most. -/
theorem forward_readOperation (context : DecodeContext) : Forward 8 (readOperation context) := by
  unfold readOperation
  refine forward_bind forward_byte (n := 7) fun opcode => ?_
  -- The entries of the map, of which an opcode of one byte has the longest tail.
  split
  · exact forward_throw (by nofun) _
  · exact (forward_bind forward_byte fun second =>
      forward_readSlot context opcode second (Opcode.secondary_isWithin second)).mono (by decide)
  · exact (forward_readEscape context opcode).mono (by decide)
  · rename_i slot hslot
    exact forward_readSlot context opcode opcode (Opcode.slot_isWithin_of_primary hslot)

/-- Reading an operation takes at least its opcode. -/
theorem readOperation_ne_nil {context : DecodeContext} {position : Nat} {used : List UInt8}
    {x : (Operation × List Operand) × Cursor}
    (h : readOperation context ⟨position, used⟩ = .ok x) : used ≠ [] := by
  intro hnil
  rw [hnil] at h
  cases h

/-- Prefixes are a front part of the bytes. If an opcode follows them, the same prefixes
    are found whatever comes behind its first byte. -/
theorem scanPrefixes_append {seen p : Prefixes} {position : Nat} {code : List UInt8} {c : Cursor}
    (h : scanPrefixes seen position code = .ok (p, c)) :
    ∃ used, code = used ++ c.rest ∧ c.position = position + used.length
      ∧ ∀ b bs, c.rest = b :: bs → ∀ more,
        scanPrefixes seen position (used ++ b :: more) = .ok (p, ⟨c.position, b :: more⟩) := by
  induction code generalizing seen position with
  | nil =>
      cases h
      exact ⟨[], rfl, rfl, fun b bs hb => by cases hb⟩
  | cons b bs ih =>
      rw [scanPrefixes] at h
      -- The first byte that is no prefix ends the scan, and this byte stays in front of `more`.
      cases hb : legacyPrefix? b with
      | none =>
          simp only [hb] at h
          cases h
          refine ⟨[], rfl, rfl, fun b' bs' hb' more => ?_⟩
          cases hb'
          simp only [List.nil_append, scanPrefixes, hb]
      | some found =>
          cases hadd : seen.add? found with
          | none =>
              simp only [hb, hadd] at h
              cases h
          | some seen' =>
              simp only [hb, hadd] at h
              rcases ih h with ⟨used, hcode, hpos, hmore⟩
              refine ⟨b :: used, by rw [hcode]; rfl, ?_, fun b' bs' hb' more => ?_⟩
              · rw [hpos, List.length_cons]
                omega
              · rw [List.cons_append, scanPrefixes]
                simp only [hb, hadd]
                exact hmore b' bs' hb' more

section Decode

variable {context : DecodeContext} {code : List UInt8} {i : Instruction} {e : DecodeError}

/-- Decoding succeeds if the prefixes can be scanned and an operation stands behind
    them. -/
theorem decode_eq_ok_iff : decode context code = .ok i ↔
    ∃ p c read c', scanPrefixes .none 0 code = .ok (p, c)
      ∧ readOperation (context.under p) c = .ok (read, c')
      ∧ .ofEncoding read.1 p read.2 (code.take c'.position) = i := by
  constructor
  · intro h
    unfold decode at h
    cases hscan : scanPrefixes .none 0 code with
    | error e => simp only [hscan, bind, Except.bind, reduceCtorEq] at h
    | ok found =>
        rcases found with ⟨p, c⟩
        simp only [hscan, bind, Except.bind] at h
        cases hread : readOperation (context.under p) c with
        | error e => simp only [hread, reduceCtorEq] at h
        | ok read =>
            simp only [hread, pure, Except.pure, Except.ok.injEq] at h
            exact ⟨p, c, read.1, read.2, rfl, hread, h⟩
  · intro h
    rcases h with ⟨p, c, read, c', hscan, hread, rfl⟩
    simp only [decode, hscan, hread, bind, Except.bind, pure, Except.pure]

/-- Decoding fails at the prefixes or behind them. -/
theorem decode_eq_error_iff : decode context code = .error e ↔
    scanPrefixes .none 0 code = .error e
      ∨ ∃ p c, scanPrefixes .none 0 code = .ok (p, c)
        ∧ readOperation (context.under p) c = .error e := by
  constructor
  · intro h
    unfold decode at h
    -- There are two places to fail: among the prefixes and behind them.
    cases hscan : scanPrefixes .none 0 code with
    | error e' =>
        simp only [hscan, bind, Except.bind, Except.error.injEq] at h
        exact Or.inl (by rw [h])
    | ok found =>
        rcases found with ⟨p, c⟩
        simp only [hscan, bind, Except.bind] at h
        cases hread : readOperation (context.under p) c with
        | error e' =>
            simp only [hread, Except.error.injEq] at h
            exact Or.inr ⟨p, c, rfl, by rw [hread, h]⟩
        | ok read => simp only [hread, pure, Except.pure, reduceCtorEq] at h
  · intro h
    rcases h with hscan | ⟨p, c, hscan, hread⟩
    · simp only [decode, hscan, bind, Except.bind]
    · simp only [decode, hscan, hread, bind, Except.bind]

/-- A decoded instruction is made of a front part of the window, which is not empty, and
    any other window with that front part gives the same instruction. No instruction is
    too long to be kept as a whole. -/
theorem decode_eq_ok (h : decode context code = .ok i) :
    0 < i.length ∧ i.length ≤ code.length ∧ i.bytes = code.take i.length
      ∧ (∀ more, decode context (i.bytes ++ more) = .ok i) ∧ i.length ≤ 12 := by
  rcases decode_eq_ok_iff.mp h with ⟨p, c, read, c', hscan, hread, h⟩
  rcases scanPrefixes_append hscan with ⟨front, hcode, hpos, hfront⟩
  rcases (forward_readOperation _).taken hread with ⟨used, hlen, hrest, hpos', hused⟩
  -- What is read behind the prefixes begins with the byte that ended them.
  have hne : used ≠ [] := by
    have hnil := hused []
    rw [List.append_nil] at hnil
    exact readOperation_ne_nil hnil
  have hcount : c'.position = (front ++ used).length := by
    rw [hpos', hpos, List.length_append]
    omega
  -- Four prefixes and eight bytes behind them fit into the instruction.
  have hshort : (front ++ used).length ≤ 12 := by
    have hprefixes := scanPrefixes_count hscan
    have hfour := p.count_le
    have hzero : Prefixes.none.count = 0 := rfl
    rw [List.length_append]
    omega
  have hsplit : code = front ++ used ++ c'.rest := by
    rw [hcode, hrest, List.append_assoc]
  have hkept : (front ++ used).take Instruction.capacity = front ++ used :=
    List.take_of_length_le (Nat.le_trans hshort (by decide))
  have hbytes : i.bytes = front ++ used := by
    rw [← h, Instruction.ofEncoding, hsplit, hcount, List.take_left, hkept]
  have hlength : i.length = (front ++ used).length := by
    rw [Instruction.length, hbytes]
  refine ⟨?_, ?_, ?_, fun more => ?_, by omega⟩
  · rw [hlength, List.length_append]
    have := List.length_pos_iff.mpr hne
    omega
  · rw [hlength, hsplit]
    simp only [List.length_append]
    omega
  · rw [hlength, hsplit, List.take_left, hbytes]
  · cases used with
    | nil => exact absurd rfl hne
    | cons b bs =>
        -- With a first byte behind them the prefixes are scanned as before, and the operation is
        -- read as before.
        have hscan' := hfront b (bs ++ c'.rest) hrest (bs ++ more)
        have hread' := hused more
        rw [List.cons_append] at hread'
        have hwindow : i.bytes ++ more = front ++ b :: (bs ++ more) := by
          rw [hbytes, List.append_assoc, List.cons_append]
        rw [decode_eq_ok_iff]
        refine ⟨p, _, read, _, by rw [hwindow]; exact hscan', hread', ?_⟩
        rw [hcount, hbytes, List.take_left, ← h, hcount, hsplit, List.take_left]

/-- More bytes behind a window do not change the instruction at its front. -/
theorem decode_append (h : decode context code = .ok i) (more : List UInt8) :
    decode context (code ++ more) = .ok i := by
  rcases decode_eq_ok h with ⟨-, -, hbytes, hmore, -⟩
  have hcode : code ++ more = i.bytes ++ (code.drop i.length ++ more) := by
    rw [hbytes, ← List.append_assoc, List.take_append_drop]
  rw [hcode]
  exact hmore _

end Decode

end Disasm86
