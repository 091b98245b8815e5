import Disasm86.Decode

/-!
# The Extent of an Encoding

How many bytes an instruction can take, read off the opcode maps.

The length of an instruction depends on the sizes in force, on its prefixes and on its
addressing byte, but there is a longest one. A number takes four bytes at most,
whatever the operand size, and a memory operand has a displacement of two. What is
left is to look at the maps: no form has two memory operands, and none that has one is
followed by more than one number. `extent` counts the bytes that a template, and then a
form, can ask for, and the maps are checked against it slot by slot.

Prefixes are counted by their groups. A second prefix of a group is refused, so there
are never more prefixes than groups.

## Main definitions

* `Template.extent`, `Form.extent`: The most bytes that operands take.
* `Slot.isWithin`: The forms of a slot take no more than so many bytes.
* `Prefixes.count`: How many groups have a prefix.

## Theorems

* `Width.encodedBytes_size_le`: The bytes of a number, whatever the operand size.
* `Opcode.all_primary_of_all_rows`: What is checked row by row holds of every opcode.
* `Opcode.slot_isWithin_of_primary`, `Opcode.secondary_isWithin`: The extents of the
  maps.
* `Prefixes.count_add?`, `Prefixes.count_le`: There are four prefixes at most.
* `scanPrefixes_count`: Every byte that is scanned adds a prefix.
-/

namespace Disasm86

/-- The most bytes that a number of a width takes. -/
def Width.extent : Width → Nat
  | .byte => 1
  | .word => 2
  | .operand => 4

/-- The most bytes that the operand of a template takes, the addressing byte apart. -/
def Template.extent : Template → Nat
  | .place _ | .memory | .farMemory | .offset _ => 2
  | .immediate width | .relative width => width.extent
  | .shortImmediate => 1
  | .farPointer => 6
  | .register _ | .segment | .fixed _ | .fixedWide _ | .constant _ => 0

/-- The most bytes that the operands of templates take together. -/
def Template.extents : List Template → Nat
  | [] => 0
  | t :: ts => t.extent + extents ts

/-- The most bytes that stand behind the opcode of a form. -/
def Form.extent (f : Form) : Nat := f.needsAddressing.toNat + Template.extents f.operands

/-- Whether no instruction of a slot has more than `n` bytes behind its opcode. The addressing byte
    of a group is read before its form is known, so it counts even if the group has no such form. -/
def Slot.isWithin (n : Nat) : Slot → Bool
  | .undefined => true
  | .form f => f.extent ≤ n
  | .group members =>
    1 ≤ n && (List.finRange 8).all fun reg =>
      (members reg).all fun f => 1 + Template.extents f.operands ≤ n

/-- The same for the entry of a first opcode byte. -/
def Entry.isWithin (n : Nat) : Entry → Bool
  | .opcode slot => slot.isWithin n
  | .legacyPrefix | .twoByte | .coprocessor => true

/-- The bound of a width holds for either operand size. -/
theorem Width.encodedBytes_size_le (w : Width) (inForce : OperandSize) :
    (w.size inForce).encodedBytes ≤ w.extent := by
  cases w with
  | byte => exact Nat.le_refl 1
  | word => exact Nat.le_refl 2
  | operand => cases inForce <;> decide

namespace Opcode

/-- What has been checked of all rows holds of the entry of every byte. -/
theorem all_primary_of_all_rows {p : Entry → Bool}
    (h : primaryRows.all (fun row => row.all p) = true) (hundefined : p undefined = true)
    (b : UInt8) : p (primary b) = true := by
  unfold primary
  rw [Array.getD_eq_getD_getElem?]
  cases hget : primaryMap[b.toNat]? with
  | none => exact hundefined
  | some entry =>
      -- Every entry of the map stands in one of its rows.
      have hmem : entry ∈ primaryRows.flatten := by
        rw [primaryMap, List.getElem?_toArray] at hget
        exact List.mem_of_getElem? hget
      rcases List.mem_flatten.mp hmem with ⟨row, hrow, hin⟩
      exact List.all_eq_true.mp (List.all_eq_true.mp h row hrow) entry hin

/-- The whole map is evaluated once, and every entry of it is read off from here. -/
theorem primaryRows_isWithin : primaryRows.all (fun row => row.all (Entry.isWithin 7)) = true := by
  decide +kernel

/-- The longest tail of an opcode is an addressing byte, a displacement and a number. -/
theorem slot_isWithin_of_primary {b : UInt8} {slot : Slot} (h : primary b = .opcode slot) :
    slot.isWithin 7 = true := by
  have hentry := all_primary_of_all_rows primaryRows_isWithin rfl b
  rw [h] at hentry
  exact hentry

/-- Opcodes of two bytes have shorter tails. -/
theorem secondary_isWithin (b : UInt8) : (secondary b).isWithin 3 = true := by
  unfold secondary
  split <;> decide

end Opcode

namespace Prefixes

/-- How many groups have a prefix. -/
def count (p : Prefixes) : Nat :=
  p.lockOrRepeat.isSome.toNat + p.segment.isSome.toNat + p.operandSize.toNat
    + p.addressSize.toNat

/-- There are four groups, and a prefix is kept of each at most. -/
theorem count_le (p : Prefixes) : p.count ≤ 4 := by
  have hlock := p.lockOrRepeat.isSome.toNat_le
  have hsegment := p.segment.isSome.toNat_le
  have hoperand := p.operandSize.toNat_le
  have haddress := p.addressSize.toNat_le
  unfold count
  omega

/-- A prefix that is accepted fills a group that was empty. -/
theorem count_add? {p p' : Prefixes} {x : LegacyPrefix} (h : p.add? x = some p') :
    p'.count = p.count + 1 := by
  -- The prefix goes to a group that has none, and the other groups stay as they are.
  cases x <;> grind [add?, count]

end Prefixes

/-- Every byte that is scanned adds a prefix. -/
theorem scanPrefixes_count {seen p : Prefixes} {position : Nat} {code : List UInt8} {c : Cursor}
    (h : scanPrefixes seen position code = .ok (p, c)) :
    c.position + seen.count = position + p.count := by
  -- By induction on the bytes, where what has been seen changes along with the position.
  induction code generalizing seen position with
  | nil =>
      cases h
      rfl
  | cons b bs ih =>
      rw [scanPrefixes] at h
      cases hb : legacyPrefix? b with
      | none =>
          simp only [hb] at h
          cases h
          rfl
      | some found =>
          cases hadd : seen.add? found with
          | none =>
              simp only [hb, hadd] at h
              cases h
          | some seen' =>
              simp only [hb, hadd] at h
              have hrest := ih h
              have hone := Prefixes.count_add? hadd
              omega

end Disasm86
