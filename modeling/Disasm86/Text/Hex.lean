/-!
# Hexadecimal text

Every number a listing shows is hexadecimal, but in four shapes: addresses are
upper case and padded, values carry a `0x` and no padding, branch targets carry
a `0x` and four digits, and raw bytes are two digits each. All four are one
digit list, padded on the left and possibly raised to upper case.

Digits are handled as characters in a list, because that is where a digit can
be read back and where two paddings can be compared.

## Main definitions

* `Hex.digits`: The digits of a number, at least so many of them.
* `Hex.upper`: Padded upper-case text, as in an address.
* `Hex.literal`: Padded lower-case text behind a `0x`, as in an operand.
* `Hex.bytes`: Space-separated bytes, as in the encoding column.
* `Hex.value?`: The value of one digit of either case.
-/

namespace Disasm86

namespace Hex

/-- The lower-case digits of `n`, with zeros in front up to `width` digits. A
    number that needs more digits than `width` shows all of them. -/
def digits (width n : Nat) : List Char :=
  List.leftpad width '0' (Nat.toDigits 16 n)

/-- Upper-case text of at least `width` digits. -/
def upper (width n : Nat) : String :=
  String.ofList ((digits width n).map Char.toUpper)

/-- Lower-case text of at least `width` digits behind a `0x`. -/
def literal (width n : Nat) : String :=
  "0x" ++ String.ofList (digits width n)

/-- One byte as two lower-case digits. -/
def byte (b : UInt8) : String :=
  String.ofList (digits 2 b.toNat)

/-- Bytes in order, separated by single spaces. -/
def bytes (bs : List UInt8) : String :=
  " ".intercalate (bs.map byte)

/-- The value of a digit; letters count in either case, and no character
    outside ASCII is a digit. -/
def value? (c : Char) : Option Nat :=
  if '0' ≤ c ∧ c ≤ '9' then some (c.toNat - '0'.toNat)
  else if 'a' ≤ c ∧ c ≤ 'f' then some (c.toNat - 'a'.toNat + 10)
  else if 'A' ≤ c ∧ c ≤ 'F' then some (c.toNat - 'A'.toNat + 10)
  else none

end Hex

end Disasm86
