import Std.Data.TreeMap

/-!
# Postings

An index over a growing list. The list itself is kept elsewhere; the index remembers
at which positions each key occurs, in the order in which they were posted, so that
the entries of a key can be found without looking at the others.

## Main definitions

* `Postings`: The positions of each key.
* `Postings.post`: Adds a position to a key.
* `Postings.select`: The entries of a list that are posted under a key.
-/

namespace Disasm86

/-- The positions at which each key occurs. -/
structure Postings (κ : Type) [Ord κ] where
  positions : Std.TreeMap κ (Array Nat) := ∅

namespace Postings

variable {κ : Type} [Ord κ]

/-- Nothing is posted. -/
def empty : Postings κ := {}

/-- The positions posted under a key, oldest first. -/
def get (p : Postings κ) (key : κ) : Array Nat := p.positions.getD key #[]

/-- Adds a position behind those that the key already has. -/
def post (p : Postings κ) (key : κ) (position : Nat) : Postings κ :=
  ⟨p.positions.alter key fun old => some ((old.getD #[]).push position)⟩

/-- The entries at the positions of a key, in the order of their posting. -/
def select {α : Type} (p : Postings κ) (key : κ) (entries : Array α) : List α :=
  (p.get key).toList.filterMap (entries[·]?)

end Postings

end Disasm86
