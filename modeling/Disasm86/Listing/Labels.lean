import Disasm86.Analysis
import Disasm86.Instruction.Printer

/-!
# Labels

Names for the places that a listing refers to. Every block gets a name made of its
start address, and so does every procedure; where a procedure starts, its name wins.

## Main definitions

* `Labels`: Names by address.
* `Labels.ofAnalysis`: The labels of an analysis.
* `Labels.resolve`: The name of an address.
* `Labels.nameOf`: The name of an address, or else its text.
-/

namespace Disasm86

/-- Names by address. -/
structure Labels where
  names : Std.TreeMap Address String := ∅

namespace Labels

/-- The name of an address: what it is, its segment and its offset. -/
def label (what : String) (a : Address) : String :=
  what ++ "_" ++ Address.wordText a.segment ++ "_" ++ Address.wordText a.offset

/-- Names an address, unless it has a name. -/
def add (what : String) (labels : Labels) (a : Address) : Labels :=
  ⟨labels.names.insertIfNew a (label what a)⟩

/-- The labels of procedures and blocks. -/
def ofAnalysis (a : Analysis) : Labels :=
  let procedures := (a.procedures.inOrder.map (·.2.entry)).foldl (add "proc") {}
  (a.blocks.inOrder.map (·.2.start)).foldl (add "loc") procedures

/-- The number of labels. -/
def size (labels : Labels) : Nat := labels.names.size

/-- The name of an address. -/
def resolve (labels : Labels) : Naming := fun a => labels.names[a]?

/-- The name of an address, or its text if it has none. -/
def nameOf (labels : Labels) (a : Address) : String := (labels.resolve a).getD a.text

end Labels

end Disasm86
