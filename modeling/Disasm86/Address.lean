import Disasm86.Text.Hex

/-!
# Addresses

A place in a segmented image: a segment number and an offset inside it. Segments
are numbered one after the other and share nothing, so there is no arithmetic
across them; an address moves inside its segment only.

Both parts are signed 32-bit words, wider than the 16 bits an image can fill. The
room is needed: a branch may name an offset below zero or past the end of its
segment, and the analysis has to see that it does rather than have the offset
wrapped back into the segment. Only at the ends of the 32-bit range does moving
an address wrap.

One address is set aside. `Address.nowhere` stands where no address is known: the
source of a reference that a user asked for, or the target of a computed jump.

## Main definitions

* `Address`: A segment number and an offset.
* `Address.nowhere`: The address that names no place.
* `Address.offsetBy`: Moves an address inside its segment.
* `Address.distanceFrom?`: How far one address is past another of its segment.
* `Address.text`: Both parts in upper-case hexadecimal.
-/

namespace Disasm86

/-- A segment number and an offset inside that segment. -/
structure Address where
  segment : Int32
  offset : Int32
deriving DecidableEq, Repr, Inhabited

namespace Address

/-- Segments come first; inside one segment, offsets do. -/
instance : Ord Address :=
  ⟨compareLex (compareOn Address.segment) (compareOn Address.offset)⟩

/-- The address that names no place. -/
def nowhere : Address := ⟨-1, -1⟩

/-- Every address but `nowhere` is somewhere. -/
def isSomewhere (a : Address) : Bool := a != nowhere

/-- The address `delta` bytes further on. The offset wraps at 32 bits. -/
def offsetBy (a : Address) (delta : Int32) : Address :=
  ⟨a.segment, a.offset + delta⟩

/-- The address `n` bytes further on. -/
def advance (a : Address) (n : Nat) : Address :=
  a.offsetBy (Int32.ofNat n)

/-- How many bytes `a` lies past `origin`, when both are in one segment. -/
def distanceFrom? (a origin : Address) : Option Int :=
  if a.segment = origin.segment then some (a.offset.toInt - origin.offset.toInt) else none

/-- A word as at least four upper-case digits. A negative word shows as the
    eight digits of its two's complement. -/
def wordText (w : Int32) : String :=
  Hex.upper 4 w.toUInt32.toNat

/-- `SSSS:OOOO`, or question marks for the address that names no place. -/
def text (a : Address) : String :=
  if a.isSomewhere then wordText a.segment ++ ":" ++ wordText a.offset else "????:????"

/-- Whether one address is not after another. -/
def notAfter (a b : Address) : Bool := (compare a b).isLE

end Address

instance : Std.TransOrd Address :=
  inferInstanceAs (Std.TransCmp (compareLex (compareOn Address.segment) (compareOn Address.offset)))

instance : Std.LawfulEqOrd Address where
  eq_of_compare := by
    rintro ⟨s, o⟩ ⟨s', o'⟩ h
    have h' : (compare s s').then (compare o o') = .eq := h
    rw [Ordering.then_eq_eq] at h'
    rw [Std.LawfulEqOrd.eq_of_compare h'.1, Std.LawfulEqOrd.eq_of_compare h'.2]

end Disasm86
