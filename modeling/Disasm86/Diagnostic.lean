import Disasm86.Address

/-!
# Diagnostics

What the analysis found wrong with the program, and where. A diagnostic never stops
the analysis. Its code says what was found, and the code alone decides how severe
that is.

## Main definitions

* `Severity`: How much a diagnostic matters.
* `DiagnosticCode`: What was found.
* `Diagnostic`: A code, its location and a message.
* `Diagnostics`: Diagnostics in the order in which they were raised.
* `Diagnostics.sorted`: Diagnostics in the order of their locations.
-/

namespace Disasm86

/-- How much a diagnostic matters. -/
inductive Severity where
  /-- The place cannot be trusted. -/
  | error
  /-- Something that should hold does not. -/
  | warning
  /-- Worth knowing, and nothing out of the ordinary. -/
  | message
deriving DecidableEq, Repr

namespace Severity

/-- The name of a severity. -/
def name : Severity → String
  | .error => "Error"
  | .warning => "Warning"
  | .message => "Message"

/-- Every severity, the gravest first. -/
def all : List Severity := [.error, .warning, .message]

end Severity

/-- What was found. -/
inductive DiagnosticCode where
  | ranIntoData
  | ranIntoCode
  | overlappingInstruction
  | addressWrapped
  | outOfImage
  | brokenBasicBlock
  | invalidInstruction
  | inconsistentCall
  | fixupDiscarded
  | dynamicTarget
  | unresolvedTarget
deriving DecidableEq, Repr

namespace DiagnosticCode

/-- The name of a code. -/
def name : DiagnosticCode → String
  | .ranIntoData => "RanIntoData"
  | .ranIntoCode => "RanIntoCode"
  | .overlappingInstruction => "OverlappingInstruction"
  | .addressWrapped => "AddressWrapped"
  | .outOfImage => "OutOfImage"
  | .brokenBasicBlock => "BrokenBasicBlock"
  | .invalidInstruction => "InvalidInstruction"
  | .inconsistentCall => "InconsistentCall"
  | .fixupDiscarded => "FixupDiscarded"
  | .dynamicTarget => "DynamicTarget"
  | .unresolvedTarget => "UnresolvedTarget"

/-- How severe a finding is. -/
def severity : DiagnosticCode → Severity
  | .ranIntoData | .ranIntoCode | .overlappingInstruction | .addressWrapped | .outOfImage
  | .brokenBasicBlock | .invalidInstruction => .error
  | .inconsistentCall | .fixupDiscarded => .warning
  | .dynamicTarget | .unresolvedTarget => .message

/-- Every code. -/
def all : List DiagnosticCode :=
  [.ranIntoData, .ranIntoCode, .overlappingInstruction, .addressWrapped, .outOfImage,
   .brokenBasicBlock, .invalidInstruction, .inconsistentCall, .fixupDiscarded, .dynamicTarget,
   .unresolvedTarget]

end DiagnosticCode

/-- Something found at a location. -/
structure Diagnostic where
  location : Address
  code : DiagnosticCode
  message : String
deriving DecidableEq, Repr

namespace Diagnostic

/-- How severe the diagnostic is. -/
def severity (d : Diagnostic) : Severity := d.code.severity

/-- `SSSS:OOOO Severity Code: message` -/
def text (d : Diagnostic) : String :=
  d.location.text ++ " " ++ d.severity.name ++ " " ++ d.code.name ++ ": " ++ d.message

end Diagnostic

/-- Diagnostics in the order in which they were raised. -/
structure Diagnostics where
  entries : Array Diagnostic := #[]
deriving DecidableEq, Repr

namespace Diagnostics

/-- Nothing was found. -/
def empty : Diagnostics := {}

/-- Adds a diagnostic. -/
def report (ds : Diagnostics) (location : Address) (code : DiagnosticCode) (message : String) :
    Diagnostics :=
  ⟨ds.entries.push ⟨location, code, message⟩⟩

/-- The diagnostics, oldest first. -/
def toList (ds : Diagnostics) : List Diagnostic := ds.entries.toList

/-- The number of diagnostics. -/
def size (ds : Diagnostics) : Nat := ds.entries.size

/-- The diagnostics by location; those of one location stay in the order in which they
    were raised. -/
def sorted (ds : Diagnostics) : List Diagnostic :=
  ds.toList.mergeSort fun a b => a.location.notAfter b.location

/-- The diagnostics of a severity, oldest first. -/
def ofSeverity (ds : Diagnostics) (s : Severity) : List Diagnostic :=
  ds.toList.filter (·.severity = s)

/-- The number of diagnostics of a severity. -/
def count (ds : Diagnostics) (s : Severity) : Nat := (ds.ofSeverity s).length

/-- The number of diagnostics with a code. -/
def countCode (ds : Diagnostics) (code : DiagnosticCode) : Nat :=
  (ds.toList.filter (·.code = code)).length

end Diagnostics

end Disasm86
