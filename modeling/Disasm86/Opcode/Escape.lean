import Disasm86.Operation
import Disasm86.Register

/-!
# Coprocessor escapes

The eight escape bytes hand the addressing byte to the coprocessor. When it names
memory, the escape and the register number choose the operation and the size of the
operand. When it does not, the second register number is a place of the coprocessor
stack, or else one more part of the opcode for operations without operands.

In the two escapes that write their result below the top of the stack, the reversed
and the plain forms of subtraction and division have changed places.

## Main definitions

* `Escape.memoryForm?`: The operation on a memory place.
* `StackOperands`: Which stack places an operation names.
* `Escape.stackForm?`: The operation on the coprocessor stack.
-/

namespace Disasm86

/-- The operands of a coprocessor operation that does not touch memory. -/
inductive StackOperands where
  | none
  /-- The top and a place below it. -/
  | topAndPlace
  /-- A place below the top, and the top. -/
  | placeAndTop
  /-- One place. -/
  | place
  /-- The register `ax`. -/
  | ax
deriving DecidableEq, Repr

namespace Escape

/-- The number of an escape byte, in its lower bits. -/
def number (escape : UInt8) : Fin 8 :=
  ⟨(escape % 8).toNat, by rw [UInt8.toNat_mod]; exact Nat.mod_lt _ (by decide)⟩

/-- Arithmetic between the top of the stack and a real number. -/
def arithmetic : Fin 8 → Coprocessor
  | 0 => .fadd
  | 1 => .fmul
  | 2 => .fcom
  | 3 => .fcomp
  | 4 => .fsub
  | 5 => .fsubr
  | 6 => .fdiv
  | 7 => .fdivr

/-- Arithmetic between the top of the stack and an integer. -/
def integerArithmetic : Fin 8 → Coprocessor
  | 0 => .fiadd
  | 1 => .fimul
  | 2 => .ficom
  | 3 => .ficomp
  | 4 => .fisub
  | 5 => .fisubr
  | 6 => .fidiv
  | 7 => .fidivr

/-- The operation on a memory place and the size of that place, by the number of the
    escape byte and the register number. -/
def memoryForm? (escape reg : Fin 8) : Option (Coprocessor × Option OperandSize) :=
  match escape, reg with
  | 0, n => some (arithmetic n, some .dword)
  | 1, 0 => some (.fld, some .dword)
  | 1, 2 => some (.fst, some .dword)
  | 1, 3 => some (.fstp, some .dword)
  | 1, 4 => some (.fldenv, none)
  | 1, 5 => some (.fldcw, some .word)
  | 1, 6 => some (.fnstenv, none)
  | 1, 7 => some (.fnstcw, some .word)
  | 2, n => some (integerArithmetic n, some .dword)
  | 3, 0 => some (.fild, some .dword)
  | 3, 2 => some (.fist, some .dword)
  | 3, 3 => some (.fistp, some .dword)
  | 3, 5 => some (.fld, some .tbyte)
  | 3, 7 => some (.fstp, some .tbyte)
  | 4, n => some (arithmetic n, some .qword)
  | 5, 0 => some (.fld, some .qword)
  | 5, 2 => some (.fst, some .qword)
  | 5, 3 => some (.fstp, some .qword)
  | 5, 4 => some (.frstor, none)
  | 5, 6 => some (.fnsave, none)
  | 5, 7 => some (.fnstsw, some .word)
  | 6, n => some (integerArithmetic n, some .word)
  | 7, 0 => some (.fild, some .word)
  | 7, 2 => some (.fist, some .word)
  | 7, 3 => some (.fistp, some .word)
  | 7, 4 => some (.fbld, some .tbyte)
  | 7, 5 => some (.fild, some .qword)
  | 7, 6 => some (.fbstp, some .tbyte)
  | 7, 7 => some (.fistp, some .qword)
  | _, _ => none

/-- The operations without operands, by register number and second number. -/
def constant? (reg rm : Fin 8) : Option Coprocessor :=
  match reg, rm with
  | 2, 0 => some .fnop
  | 4, 0 => some .fchs
  | 4, 1 => some .fabs
  | 4, 4 => some .ftst
  | 4, 5 => some .fxam
  | 5, 0 => some .fld1
  | 5, 1 => some .fldl2t
  | 5, 2 => some .fldl2e
  | 5, 3 => some .fldpi
  | 5, 4 => some .fldlg2
  | 5, 5 => some .fldln2
  | 5, 6 => some .fldz
  | 6, 0 => some .f2xm1
  | 6, 1 => some .fyl2x
  | 6, 2 => some .fptan
  | 6, 3 => some .fpatan
  | 6, 4 => some .fxtract
  | 6, 6 => some .fdecstp
  | 6, 7 => some .fincstp
  | 7, 0 => some .fprem
  | 7, 1 => some .fyl2xp1
  | 7, 2 => some .fsqrt
  | 7, 4 => some .frndint
  | 7, 5 => some .fscale
  | _, _ => none

/-- The operations that set the state of the coprocessor. -/
def control? (rm : Fin 8) : Option Coprocessor :=
  match rm with
  | 0 => some .fneni
  | 1 => some .fndisi
  | 2 => some .fnclex
  | 3 => some .fninit
  | 4 => some .fsetpm
  | _ => none

/-- The operation on the coprocessor stack, by the number of the escape byte and the
    two register numbers. -/
def stackForm? (escape reg rm : Fin 8) : Option (Coprocessor × StackOperands) :=
  match escape, reg with
  | 0, 2 => some (.fcom, .place)
  | 0, 3 => some (.fcomp, .place)
  | 0, n => some (arithmetic n, .topAndPlace)
  | 1, 0 => some (.fld, .place)
  | 1, 1 => some (.fxch, .place)
  | 1, n => (constant? n rm).map (·, .none)
  | 3, 4 => (control? rm).map (·, .none)
  | 4, 0 => some (.fadd, .placeAndTop)
  | 4, 1 => some (.fmul, .placeAndTop)
  | 4, 4 => some (.fsubr, .placeAndTop)
  | 4, 5 => some (.fsub, .placeAndTop)
  | 4, 6 => some (.fdivr, .placeAndTop)
  | 4, 7 => some (.fdiv, .placeAndTop)
  | 5, 0 => some (.ffree, .place)
  | 5, 2 => some (.fst, .place)
  | 5, 3 => some (.fstp, .place)
  | 6, 0 => some (.faddp, .placeAndTop)
  | 6, 1 => some (.fmulp, .placeAndTop)
  | 6, 3 => if rm.val = 1 then some (.fcompp, .none) else none
  | 6, 4 => some (.fsubrp, .placeAndTop)
  | 6, 5 => some (.fsubp, .placeAndTop)
  | 6, 6 => some (.fdivrp, .placeAndTop)
  | 6, 7 => some (.fdivp, .placeAndTop)
  | 7, 4 => if rm.val = 0 then some (.fnstsw, .ax) else none
  | _, _ => none

end Escape

end Disasm86
