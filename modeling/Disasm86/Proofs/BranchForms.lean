import Disasm86.Proofs.Reading

/-!
# Which Instructions Name a Distance

A branch names its target as a distance from its own end, or it does not name it at all. Which
of the two it is depends on the opcode, and exploring relies on what the opcode maps have to
say about it: a conditional jump always has a distance, a near jump or call may have one, and
nothing else in the maps has one. An operation with a distance has no second operand, so the
target is never one of several.

The maps say so of templates, and it is to be carried over to the operands that are read.
`Reader.Yields` is the property of one reader that everything it returns has some property, and
like reading forward it passes through `bind`. An operand is a distance exactly if its template
asks for one, so the list of operands looks like the list of templates, and the maps are checked
slot by slot.

## Main definitions

* `Operand.isRelative`, `Template.isRelative`: Whether an operand is a distance.
* `Operation.suits`: Whether an operation may have such operands.
* `Slot.allForms`, `Entry.allForms`: Whether all forms of an opcode have a property.
* `Reader.Yields`: Everything that a reader returns has a property.

## Theorems

* `Reader.yields_bind`: What is returned passes from reader to reader.
* `yields_readOperands`: Operands are distances where their templates are.
* `yields_readSlot_of_forms`: What the forms of an opcode have in common passes to what is read.
* `yields_readOperation`: What is read suits its operation.
* `decode_suits`: The operands of a decoded instruction suit its operation.
* `decode_distance`: An instruction with a distance is a branch and has nothing else.
-/

namespace Disasm86

/-- Whether an operand is a distance from the end of the instruction. -/
def Operand.isRelative : Operand → Bool
  | .relative _ _ _ => true
  | _ => false

/-- Whether a template asks for a distance from the end of the instruction. -/
def Template.isRelative : Template → Bool
  | .relative _ => true
  | _ => false

/-- Whether an operation may have operands of which so many are distances, in this order. A
    conditional jump has a distance and nothing else, a near jump or call may have one, and no
    other operation has any. -/
def Operation.suits (operation : Operation) (distances : List Bool) : Bool :=
  match operation.transfer? with
  | some .conditionalJump => distances = [true]
  | some .nearJump | some .nearCall => distances = [true] || !distances.contains true
  | _ => !distances.contains true

/-- Whether the operands that a form asks for suit its operation. -/
def Form.isSuited (f : Form) : Bool := f.operation.suits (f.operands.map Template.isRelative)

/-- Whether all forms of a slot have a property. A group has a form for each value of the middle
    field of its addressing byte, or none. -/
def Slot.allForms (p : Form → Bool) : Slot → Bool
  | .undefined => true
  | .form f => p f
  | .group members => (List.finRange 8).all fun reg => (members reg).all p

/-- The same for the entry of a first opcode byte. -/
def Entry.allForms (p : Form → Bool) : Entry → Bool
  | .opcode slot => slot.allForms p
  | .legacyPrefix | .twoByte | .coprocessor => true

namespace Opcode

/-- All opcodes of one byte are looked at once. -/
theorem primaryRows_isSuited :
    primaryRows.all (fun row => row.all (Entry.allForms Form.isSuited)) = true := by
  decide +kernel

theorem slot_isSuited_of_primary {b : UInt8} {slot : Slot} (h : primary b = .opcode slot) :
    slot.allForms Form.isSuited = true := by
  have hentry := all_primary_of_all_rows primaryRows_isSuited rfl b
  rw [h] at hentry
  exact hentry

/-- Opcodes of two bytes, each by itself. -/
theorem secondary_isSuited (b : UInt8) : (secondary b).allForms Form.isSuited = true := by
  unfold secondary
  split <;> decide

end Opcode

namespace Reader

variable {α β : Type} {P : α → Prop} {Q : β → Prop}

/-- Everything that the reader returns has the property. Nothing is said of readers that fail, so a
    property of decoded instructions is carried through without looking at positions. -/
def Yields (P : α → Prop) (r : Reader α) : Prop := ∀ c x c', r c = .ok (x, c') → P x

theorem yields_pure {x : α} (h : P x) : Yields P (pure x) := by
  intro c y c' hc
  cases hc
  exact h

theorem yields_throw (e : DecodeError) : Yields P (throw e) := by
  intro c x c' hc
  cases hc

/-- Readers of which nothing has to be known. -/
theorem yields_any (r : Reader α) : Yields (fun _ => True) r := fun _ _ _ _ => trivial

/-- The second reader may rely on what the first one has returned. -/
theorem yields_bind {r : Reader α} {f : α → Reader β} (hr : Yields P r)
    (hf : ∀ x, P x → Yields Q (f x)) : Yields Q (r >>= f) := by
  intro c y c' h
  rw [bind_apply] at h
  cases hc : r c with
  | error e =>
      rw [hc] at h
      cases h
  | ok p =>
      rw [hc] at h
      exact hf p.1 (hr _ _ _ hc) _ _ _ h

theorem yields_map {r : Reader α} {f : α → β} (h : ∀ x, Q (f x)) :
    Yields Q (r >>= fun x => pure (f x)) :=
  yields_bind (yields_any r) fun x _ => yields_pure (h x)

end Reader

open Reader

theorem yields_readMemory (context : DecodeContext) (m : ModRM) (size : Option OperandSize) :
    Yields (fun x => x.isRelative = false) (readMemory context m size) := by
  unfold readMemory
  split
  · exact yields_bind (yields_throw (P := fun _ => True) _) fun _ _ => yields_map fun _ => rfl
  · exact yields_map fun _ => rfl

/-- One case for each template: an operand is a distance exactly if its template asks for
    one. -/
theorem yields_readOperand (context : DecodeContext) (opcode : UInt8) (m : ModRM) (t : Template) :
    Yields (fun x => x.isRelative = t.isRelative) (readOperand context opcode m t) := by
  cases t with
  | place width =>
      rw [readOperand, readPlace]
      split
      · exact yields_pure rfl
      · exact yields_readMemory context m _
  | register width => exact yields_pure rfl
  | segment =>
      unfold readOperand
      cases SegmentRegister.ofNumber? m.reg with
      | some r => exact yields_pure rfl
      | none => exact yields_throw _
  | memory =>
      rw [readOperand]
      split
      · exact yields_throw _
      · exact yields_readMemory context m _
  | farMemory =>
      rw [readOperand]
      split
      · exact yields_throw _
      · exact yields_readMemory context m _
  | immediate width => exact yields_map fun _ => rfl
  | shortImmediate => exact yields_map fun _ => rfl
  | relative width => exact yields_map fun _ => rfl
  | farPointer => exact yields_map fun _ => rfl
  | offset width =>
      rw [readOperand, readOffset]
      split
      · exact yields_bind (yields_throw (P := fun _ => True) _) fun _ _ => yields_map fun _ => rfl
      · exact yields_map fun _ => rfl
  | fixed r => exact yields_pure rfl
  | fixedWide r => exact yields_pure rfl
  | constant value => exact yields_pure rfl

/-- The operands of a form are distances where its templates are, by induction on the templates. -/
theorem yields_readOperands (context : DecodeContext) (opcode : UInt8) (m : ModRM)
    (ts : List Template) :
    Yields (fun xs => xs.map Operand.isRelative = ts.map Template.isRelative)
      (readOperands context opcode m ts) := by
  induction ts with
  | nil => exact yields_pure rfl
  | cons t ts ih =>
      refine yields_bind (yields_readOperand context opcode m t) fun x hx => ?_
      refine yields_bind ih fun xs hxs => yields_pure ?_
      rw [List.map_cons, List.map_cons, hx, hxs]

/-- The operands of a suited form suit the operation. -/
theorem yields_form (context : DecodeContext) (opcode : UInt8) (m : ModRM) {f : Form}
    (h : f.isSuited = true) :
    Yields (fun x => x.1.suits (x.2.map Operand.isRelative) = true)
      (readOperands context opcode m f.operands >>= fun xs => pure (f.operation, xs)) := by
  refine yields_bind (yields_readOperands context opcode m f.operands) fun xs hxs =>
    yields_pure ?_
  rw [hxs]
  exact h

/-- What a slot reads has a property that each of its forms gives. The form is picked by an
    addressing byte at most, so nothing but the maps decides. -/
theorem yields_readSlot_of_forms {p : Form → Bool} {P : Operation × List Operand → Prop}
    {context : DecodeContext} (opcode last : UInt8) {slot : Slot} (h : slot.allForms p = true)
    (hform : ∀ f m, p f = true → Yields P
      (readOperands context opcode m f.operands >>= fun xs => pure (f.operation, xs))) :
    Yields P (readSlot context opcode last slot) := by
  cases slot with
  | undefined => exact yields_throw _
  | form f =>
      rw [readSlot]
      split
      · exact yields_bind (yields_any _) fun m _ => hform f m h
      · exact yields_bind (yields_any _) fun m _ => hform f m h
  | group members =>
      unfold readSlot
      refine yields_bind (yields_any _) fun m _ => ?_
      -- Every member of the group has the property, so the one that is picked has it.
      have hmember := List.all_eq_true.mp h m.reg (List.mem_finRange _)
      cases hm : members m.reg with
      | none => exact yields_throw _
      | some f =>
          rw [hm, Option.all_some] at hmember
          exact hform f m hmember

/-- What a slot reads suits its operation, because all of its forms do. -/
theorem yields_readSlot (context : DecodeContext) (opcode last : UInt8) {slot : Slot}
    (h : slot.allForms Form.isSuited = true) :
    Yields (fun x => x.1.suits (x.2.map Operand.isRelative) = true)
      (readSlot context opcode last slot) :=
  yields_readSlot_of_forms opcode last h fun _ m hf => yields_form context opcode m hf

/-- The coprocessor has no branches. -/
theorem yields_readEscape (context : DecodeContext) (escape : UInt8) :
    Yields (fun x => x.1.suits (x.2.map Operand.isRelative) = true)
      (readEscape context escape) := by
  unfold readEscape
  refine yields_bind (yields_any _) fun m _ => ?_
  -- Neither the stack nor memory is a distance.
  split
  · split
    · exact yields_throw _
    · rename_i operands _
      refine yields_pure ?_
      cases operands <;> rfl
  · split
    · exact yields_throw _
    · refine yields_bind (yields_readMemory context m _) fun x hx => yields_pure ?_
      simp only [List.map_cons, List.map_nil, hx]
      rfl

/-- What is read behind the prefixes suits its operation. -/
theorem yields_readOperation (context : DecodeContext) :
    Yields (fun x => x.1.suits (x.2.map Operand.isRelative) = true) (readOperation context) := by
  unfold readOperation
  refine yields_bind (yields_any _) fun opcode _ => ?_
  split
  · exact yields_throw _
  · exact yields_bind (yields_any _) fun second _ =>
      yields_readSlot context opcode second (Opcode.secondary_isSuited second)
  · exact yields_readEscape context opcode
  · rename_i slot hslot
    exact yields_readSlot context opcode opcode (Opcode.slot_isSuited_of_primary hslot)

section Decoded

variable {context : DecodeContext} {code : List UInt8} {i : Instruction}

/-- The operands of a decoded instruction suit its operation, whatever the context. -/
theorem decode_suits (h : decode context code = .ok i) :
    i.operation.suits (i.operands.map Operand.isRelative) = true := by
  rcases decode_eq_ok_iff.mp h with ⟨p, c, read, c', -, hread, rfl⟩
  exact yields_readOperation _ _ _ _ hread

/-- An instruction with a distance is a jump or a call and has no other operand. One without is no
    conditional jump. It is a fact about the opcode maps: all of their forms are looked at, and
    reading an operand keeps what its template asks for. -/
theorem decode_distance (h : decode context code = .ok i) :
    (∃ t d size field, i.transfer? = some t ∧ t.namesTarget ∧ i.operands = [.relative d size field])
      ∨ (i.transfer? ≠ some .conditionalJump ∧ ∀ x ∈ i.operands, x.isRelative = false) := by
  have hsuits := decode_suits h
  -- If the only operand is a distance, it is one of the first kind.
  have hone : i.operands.map Operand.isRelative = [true] →
      ∃ d size field, i.operands = [.relative d size field] := by
    intro hmap
    rcases List.map_eq_singleton_iff.mp hmap with ⟨x, hx, hrelative⟩
    cases x with
    | relative d size field => exact ⟨d, size, field, hx⟩
    | _ => cases hrelative
  have hnone : ¬ (i.operands.map Operand.isRelative).contains true →
      ∀ x ∈ i.operands, x.isRelative = false := by
    intro hmap x hx
    rw [Bool.eq_false_iff]
    intro hrelative
    refine hmap (List.contains_iff_mem.mpr ?_)
    rw [← hrelative]
    exact List.mem_map_of_mem hx
  -- A near jump or call is one or the other.
  have heither : ∀ t, i.transfer? = some t → t.namesTarget → t ≠ .conditionalJump →
      (decide (i.operands.map Operand.isRelative = [true])
        || !(i.operands.map Operand.isRelative).contains true) = true →
      (∃ t d size field, i.transfer? = some t ∧ t.namesTarget
          ∧ i.operands = [.relative d size field])
        ∨ (i.transfer? ≠ some .conditionalJump ∧ ∀ x ∈ i.operands, x.isRelative = false) := by
    intro t ht hnames hne hor
    rcases Bool.or_eq_true_iff.mp hor with hmap | hmap
    · rcases hone (of_decide_eq_true hmap) with ⟨d, size, field, hoperands⟩
      exact Or.inl ⟨t, d, size, field, ht, hnames, hoperands⟩
    · refine Or.inr ⟨?_, hnone (by simpa using hmap)⟩
      rw [ht]
      exact fun heq => hne (Option.some.inj heq)
  -- The cases of `suits`: conditional jumps, near jumps, near calls and everything else.
  unfold Operation.suits at hsuits
  split at hsuits
  · rename_i ht
    rcases hone (of_decide_eq_true hsuits) with ⟨d, size, field, hoperands⟩
    exact Or.inl ⟨.conditionalJump, d, size, field, ht, rfl, hoperands⟩
  · rename_i ht
    exact heither .nearJump ht rfl (by decide) hsuits
  · rename_i ht
    exact heither .nearCall ht rfl (by decide) hsuits
  · rename_i hconditional _ _
    exact Or.inr ⟨hconditional, hnone (by simpa using hsuits)⟩

end Decoded

end Disasm86
