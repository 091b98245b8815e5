import Disasm86.Listing.Disassembly
import Disasm86.Listing.Labels
import Disasm86.Text.Json

/-!
# JSON listings

A listing to be read by other programs. It holds what the plain text listing holds,
with numbers for blocks and names for procedures. Addresses that are unknown are
written as nothing at all.

## Main definitions

* `instructionJson`: An instruction at an address.
* `Analysis.json`: An analysis.
* `Disassembly.jsonListing`: The listing of a disassembly.
-/

namespace Disasm86

open JsonValue

/-- An instruction at an address. -/
def instructionJson (names : Naming) : Address × Instruction → JsonValue
  | (a, i) =>
    object [("address", string a.text), ("size", number i.length),
      ("mnemonic", string i.operation.mnemonic), ("text", string (i.textAt a names)),
      ("bytes", string (Hex.bytes i.bytes))]

/-- An address, if it is known. -/
def Address.knownText? (a : Address) : Option String :=
  if a.isSomewhere then some a.text else none

/-- A reference; a slot is written only if there is one. -/
def Reference.json (r : Reference) : JsonValue :=
  object ([("type", string r.kind.name), ("source", optional r.source.knownText?),
      ("target", optional r.target.knownText?)]
    ++ r.slot.knownText?.toList.map fun slot => ("data_location", string slot))

/-- A diagnostic. -/
def Diagnostic.json (d : Diagnostic) : JsonValue :=
  object [("location", optional d.location.knownText?), ("category", string d.severity.name),
    ("code", string d.code.name), ("message", string d.message)]

namespace Analysis

/-- A block with its instructions. -/
def blockJson (a : Analysis) (labels : Labels) : Nat × Block → JsonValue
  | (id, b) =>
    object [("id", number id), ("label", optional (labels.resolve b.start)),
      ("start", string b.start.text), ("end", string b.stop.text), ("type", string b.kind.name),
      ("instructions", array ((a.blockInstructions b).map (instructionJson labels.resolve))),
      ("successors", array ((a.flow.successors id).map number))]

/-- The names of procedures. -/
def procedureNames (a : Analysis) (labels : Labels) (ids : List Nat) : JsonValue :=
  array ((ids.filterMap a.procedures.get?).map fun p => string (labels.nameOf p.entry))

/-- A procedure. -/
def procedureJson (a : Analysis) (labels : Labels) : Nat × Procedure → JsonValue
  | (id, p) =>
    object [("label", string (labels.nameOf p.entry)), ("entry_point", string p.entry.text),
      ("return_type", string p.returns.text), ("blocks", array (p.blocks.toList.map number)),
      ("callers", a.procedureNames labels (a.calls.callers id)),
      ("callees", a.procedureNames labels (a.calls.callees id))]

/-- An analysis. -/
def json (a : Analysis) : JsonValue :=
  let labels := Labels.ofAnalysis a
  object [("type", string "flow"),
    ("blocks", array (a.blocks.inOrder.map (a.blockJson labels))),
    ("xrefs", array (a.references.toList.map Reference.json)),
    ("procedures", array (a.procedures.inOrder.map (a.procedureJson labels))),
    ("errors", array (a.diagnostics.sorted.map Diagnostic.json))]

end Analysis

/-- The JSON listing of a disassembly. -/
def Disassembly.jsonListing : Disassembly → String
  | .stream instructions =>
    (object [("type", string "stream"),
      ("instructions", array (instructions.map (instructionJson .empty)))]).render
  | .flow analysis => analysis.json.render

end Disasm86
