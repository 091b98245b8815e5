/-!
# Blank characters

The characters that may surround a typed number without being part of it: the
white space of Unicode, which is wider than the white space of ASCII.

## Main definitions

* `isBlank`: Whether a character is white space.
* `trimBlanks`: A character list without the white space at its two ends.
-/

namespace Disasm86

/-- White space in the sense of the Unicode property of that name. -/
def isBlank (c : Char) : Bool :=
  let n := c.toNat
  (0x09 ≤ n && n ≤ 0x0D) || n == 0x20 || n == 0x85 || n == 0xA0 || n == 0x1680
    || (0x2000 ≤ n && n ≤ 0x200A) || n == 0x2028 || n == 0x2029 || n == 0x202F
    || n == 0x205F || n == 0x3000

/-- Drops white space from both ends and leaves what is between them. -/
def trimBlanks (cs : List Char) : List Char :=
  ((cs.dropWhile isBlank).reverse.dropWhile isBlank).reverse

end Disasm86
