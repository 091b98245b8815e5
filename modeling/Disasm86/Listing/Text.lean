import Disasm86.Listing.Disassembly
import Disasm86.Listing.Labels

/-!
# Plain text listings

A listing to be read. Instructions are indented lines with address, bytes and text;
everything else is a comment or a label. A flow listing has its blocks in address
order, and behind them the references, the procedures and the diagnostics, each part
only if there is something in it.

## Main definitions

* `padRight`: Text filled up with blanks.
* `instructionLine`: The line of an instruction.
* `Analysis.textListing`: The listing of an analysis.
* `Disassembly.textListing`: The listing of a disassembly.
-/

namespace Disasm86

/-- Text with blanks behind it up to a width. -/
def padRight (width : Nat) (s : String) : String :=
  s ++ String.ofList (List.replicate (width - s.length) ' ')

/-- Lines, each with its line end. -/
def unlines (lines : List String) : String :=
  String.join (lines.map (· ++ "\n"))

/-- The line of an instruction: address, bytes and text. -/
def instructionLine (names : Naming) : Address × Instruction → String
  | (a, i) => "  " ++ a.text ++ "  " ++ padRight 20 (Hex.bytes i.bytes) ++ " " ++ i.textAt a names

/-- The lines of a plain sequence of instructions. -/
def streamLines (instructions : List (Address × Instruction)) : List String :=
  ["; Linear sweep: " ++ toString instructions.length ++ " instructions", ""]
    ++ instructions.map (instructionLine .empty)

namespace Analysis

/-- The line that sums up an analysis. -/
def summaryLine (a : Analysis) : String :=
  "; Flow analysis: " ++ toString a.code.size ++ " instructions, " ++ toString a.blocks.size
    ++ " blocks, " ++ toString a.procedures.size ++ " procedures"

/-- The lines of a block. -/
def blockLines (a : Analysis) (labels : Labels) : Nat × Block → List String
  | (id, b) =>
    let successors := (a.flow.successors id).filterMap fun next =>
      (a.blocks.get? next).map fun target => labels.nameOf target.start
    [""] ++ (labels.resolve b.start).toList.map (· ++ ":")
      ++ ["; block " ++ Block.idText id ++ " " ++ b.text]
      ++ (a.blockInstructions b).map (instructionLine labels.resolve)
      ++ (if successors.isEmpty then [] else ["; successors: " ++ ", ".intercalate successors])

/-- The line of a reference. -/
def referenceLine (r : Reference) : String :=
  ";   " ++ padRight 16 r.kind.name ++ " " ++ r.source.text ++ " -> " ++ r.target.text
    ++ (if r.slot.isSomewhere then " via " ++ r.slot.text else "")

/-- The line of a procedure. -/
def procedureLine (a : Analysis) (labels : Labels) : Nat × Procedure → String
  | (id, p) =>
    let callees := (a.calls.callees id).filterMap fun callee =>
      (a.procedures.get? callee).map fun q => labels.nameOf q.entry
    ";   " ++ labels.nameOf p.entry ++ " returns " ++ p.returns.text ++ ", "
      ++ toString p.blocks.size ++ " block(s)"
      ++ (if callees.isEmpty then "" else ", calls " ++ ", ".intercalate callees)

/-- How many diagnostics there are of each severity. -/
def countsText (ds : Diagnostics) : String :=
  ", ".intercalate (Severity.all.map fun s => toString (ds.count s) ++ " " ++ s.name)

/-- A part of a listing with its heading, or nothing if the part is empty. -/
def part (heading : String) (lines : List String) : List String :=
  if lines.isEmpty then [] else "" :: heading :: lines

/-- The lines of an analysis. -/
def lines (a : Analysis) : List String :=
  let labels := Labels.ofAnalysis a
  [a.summaryLine] ++ a.blocks.inOrder.flatMap (a.blockLines labels)
    ++ part "; Cross-references" (a.references.toList.map referenceLine)
    ++ part "; Procedures" (a.procedures.inOrder.map (a.procedureLine labels))
    ++ part ("; Diagnostics: " ++ countsText a.diagnostics)
      (a.diagnostics.sorted.map fun d => ";   " ++ d.text)

/-- The plain text listing of an analysis. -/
def textListing (a : Analysis) : String := unlines a.lines

end Analysis

/-- The plain text listing of a disassembly. -/
def Disassembly.textListing : Disassembly → String
  | .stream instructions => unlines (streamLines instructions)
  | .flow analysis => analysis.textListing

end Disasm86
