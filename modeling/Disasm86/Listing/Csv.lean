import Disasm86.Listing.Disassembly
import Disasm86.Listing.Labels

/-!
# Tabular listings

A listing as a table of comma-separated values with a row for each instruction. The
names of the columns stand in front of the first row; a table without rows is empty
text.

A block that several procedures share is listed once, under the first of them.

The rows are the listing. Putting them into text is the last step before output.

## Main definitions

* `Csv.field`: A value, between quotes where it needs them.
* `CsvRow`: A row of the table.
* `Analysis.csvRows`: The rows of an analysis.
* `Disassembly.csvListing`: The listing of a disassembly.
-/

namespace Disasm86

namespace Csv

/-- Whether a character forces quotes around its value. -/
def needsQuotes (c : Char) : Bool := c = ',' || c = '"' || c = '\n' || c = '\r'

/-- A value. Between quotes, a quote is written twice. -/
def field (s : String) : String :=
  if s.toList.any needsQuotes then
    "\"" ++ String.join (s.toList.map fun c => if c = '"' then "\"\"" else String.singleton c)
      ++ "\""
  else s

/-- Values as a line with its end. -/
def line (fields : List String) : String :=
  ",".intercalate (fields.map field) ++ "\n"

end Csv

/-- A row of the table; values that do not apply are empty. -/
structure CsvRow where
  address : String
  block : String := ""
  blockKind : String := ""
  procedure : String := ""
  size : Nat
  bytes : String
  instruction : String
deriving DecidableEq, Repr

namespace CsvRow

/-- The names of the columns. -/
def header : List String :=
  ["address", "block", "block_type", "procedure", "size", "bytes", "instruction"]

/-- The values of a row, in the order of the columns. -/
def fields (r : CsvRow) : List String :=
  [r.address, r.block, r.blockKind, r.procedure, toString r.size, r.bytes, r.instruction]

/-- The row of an instruction, without a block. -/
def ofInstruction (names : Naming) : Address × Instruction → CsvRow
  | (a, i) =>
    { address := a.text
      size := i.length
      bytes := Hex.bytes i.bytes
      instruction := i.textAt a names }

/-- Rows as text, with the names of the columns in front of the first. -/
def render (rows : List CsvRow) : String :=
  if rows.isEmpty then ""
  else Csv.line header ++ String.join (rows.map fun r => Csv.line r.fields)

end CsvRow

namespace Analysis

/-- The name of the first procedure that has a block. -/
def ownerName (a : Analysis) (labels : Labels) (block : Nat) : String :=
  match (a.procedures.owners block).head? with
  | none => ""
  | some id => ((a.procedures.get? id).bind fun p => labels.resolve p.entry).getD ""

/-- The rows of a block. -/
def blockRows (a : Analysis) (labels : Labels) : Nat × Block → List CsvRow
  | (id, b) =>
    let owner := a.ownerName labels id
    (a.blockInstructions b).map fun entry =>
      { CsvRow.ofInstruction labels.resolve entry with
        block := b.start.text
        blockKind := b.kind.name
        procedure := owner }

/-- The rows of an analysis, block by block. -/
def csvRows (a : Analysis) : List CsvRow :=
  a.blocks.inOrder.flatMap (a.blockRows (Labels.ofAnalysis a))

end Analysis

/-- The tabular listing of a disassembly. -/
def Disassembly.csvListing : Disassembly → String
  | .stream instructions => CsvRow.render (instructions.map (CsvRow.ofInstruction .empty))
  | .flow analysis => CsvRow.render analysis.csvRows

end Disasm86
