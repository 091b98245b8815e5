import Disasm86.Address
import Disasm86.Text.Blank
import Disasm86.Text.Integer

/-!
# Addresses typed by a user

An address is typed as `SEGMENT:OFFSET` or as an offset alone, which then lies in
segment zero. The first colon divides the two parts; a later one belongs to the
offset and makes it unreadable. Each part is a signed hexadecimal number that may
stand between blanks and behind any number of `0x`, followed by any number of
`0X`.

## Main definitions

* `stripHexMarks`: A digit list without the `0x` marks in front of it.
* `Address.ParseFault`: The part that could not be read, and why.
* `Address.parse`: The address that a text names.
-/

namespace Disasm86

/-- Drops a two-character mark as often as it stands in front. -/
def dropMark (a b : Char) : List Char → List Char
  | c :: d :: cs => if c = a ∧ d = b then dropMark a b cs else c :: d :: cs
  | cs => cs

/-- Drops every `0x` in front, and then every `0X`. -/
def stripHexMarks (cs : List Char) : List Char :=
  dropMark '0' 'X' (dropMark '0' 'x' cs)

/-- Divides a character list at its first colon. -/
def splitAtColon : List Char → List Char × Option (List Char)
  | [] => ([], none)
  | c :: cs =>
    if c = ':' then ([], some cs)
    else
      let (before, after) := splitAtColon cs
      (c :: before, after)

namespace Address

/-- A part of a typed address that is no hexadecimal number, as it was typed. -/
structure ParseFault where
  part : String
  cause : IntegerFault
deriving DecidableEq, Repr

/-- The wording of a parse fault. -/
def ParseFault.message (f : ParseFault) : String :=
  "Invalid hex value '" ++ f.part ++ "': " ++ f.cause.message

/-- Reads one part. The fault quotes the part with its blanks and marks. -/
def parsePart (cs : List Char) : Except ParseFault Int32 :=
  match IntegerRange.signed32.read 16 (stripHexMarks (trimBlanks cs)) with
  | .ok n => .ok (Int32.ofInt n)
  | .error cause => .error ⟨String.ofList cs, cause⟩

/-- Reads a whole address; of two unreadable parts the segment is reported. -/
def parseChars (cs : List Char) : Except ParseFault Address :=
  match splitAtColon cs with
  | (offset, none) => do
    return ⟨0, ← parsePart offset⟩
  | (segment, some offset) => do
    let segment ← parsePart segment
    let offset ← parsePart offset
    return ⟨segment, offset⟩

/-- The address that a text names. -/
def parse (s : String) : Except ParseFault Address :=
  parseChars s.toList

end Address

end Disasm86
