import Disasm86.Text.Hex

/-!
# Bounded integers read from text

Numbers come in from the outside as digits with an optional sign, and each has
a range it must fit. A reader stops at the first fault it meets from the left,
so which of two faults is reported depends on their positions: digits that have
already left the range win over a stray character behind them.

A minus sign belongs to the syntax only where the range has room for negative
numbers. Where it has none, a minus sign is one more stray character.

## Main definitions

* `IntegerFault`: Why a text is not an integer of the range.
* `IntegerRange`: The least and the greatest integer that fit.
* `IntegerRange.read`: The integer that a text denotes in a base.
-/

namespace Disasm86

/-- Why a text is not an integer of the range asked for. -/
inductive IntegerFault where
  /-- There is no character at all. -/
  | empty
  /-- A character is not a digit of the base. -/
  | stray
  /-- The digits read so far exceed the greatest integer of the range. -/
  | tooLarge
  /-- The digits read so far fall below the least integer of the range. -/
  | tooSmall
deriving DecidableEq, Repr

/-- The wording of each fault. -/
def IntegerFault.message : IntegerFault → String
  | .empty => "cannot parse integer from empty string"
  | .stray => "invalid digit found in string"
  | .tooLarge => "number too large to fit in target type"
  | .tooSmall => "number too small to fit in target type"

/-- The integers between two bounds, both included. -/
structure IntegerRange where
  least : Int
  greatest : Int
deriving DecidableEq, Repr

namespace IntegerRange

/-- Signed 32-bit integers. -/
def signed32 : IntegerRange := ⟨-2147483648, 2147483647⟩

/-- Unsigned 16-bit integers. -/
def unsigned16 : IntegerRange := ⟨0, 65535⟩

/-- Unsigned 64-bit integers. -/
def unsigned64 : IntegerRange := ⟨0, 18446744073709551615⟩

/-- Extends `acc` by the digits that follow, upward for a positive number. -/
def readUp (range : IntegerRange) (base : Nat) (acc : Int) : List Char → Except IntegerFault Int
  | [] => .ok acc
  | c :: cs =>
    match (Hex.value? c).filter (· < base) with
    | none => .error .stray
    | some d =>
      let next := acc * base + d
      if range.greatest < next then .error .tooLarge else readUp range base next cs

/-- Extends `acc` by the digits that follow, downward for a negative number. -/
def readDown (range : IntegerRange) (base : Nat) (acc : Int) : List Char → Except IntegerFault Int
  | [] => .ok acc
  | c :: cs =>
    match (Hex.value? c).filter (· < base) with
    | none => .error .stray
    | some d =>
      let next := acc * base - d
      if next < range.least then .error .tooSmall else readDown range base next cs

/-- Reads an optional sign and at least one digit. A sign alone is a stray
    character, not an empty text. -/
def read (range : IntegerRange) (base : Nat) : List Char → Except IntegerFault Int
  | [] => .error .empty
  | ['+'] => .error .stray
  | ['-'] => .error .stray
  | '+' :: cs => readUp range base 0 cs
  | '-' :: cs =>
    if range.least < 0 then readDown range base 0 cs else .error .stray
  | cs => readUp range base 0 cs

end IntegerRange

end Disasm86
