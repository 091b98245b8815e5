import Disasm86.Analysis
import Disasm86.Failure
import Disasm86.Sweep

/-!
# Disassemblies

What there is to list: the plain sequence of instructions that a linear sweep finds,
or the analysis that following the control flow arrives at.

## Main definitions

* `Strategy`: The way in which instructions are found.
* `Disassembly`: What a strategy finds.
* `Strategy.parse`: The strategy of a name.
* `Strategy.run`: Applies a strategy to an image.
-/

namespace Disasm86

/-- The way in which instructions are found. -/
inductive Strategy where
  /-- Decode every segment from end to end. -/
  | linear
  /-- Follow the control flow from the entry points. -/
  | recursive
deriving DecidableEq, Repr, Inhabited

namespace Strategy

/-- Both strategies. -/
def all : List Strategy := [.linear, .recursive]

/-- The name by which a user asks for a strategy. -/
def name : Strategy → String
  | .linear => "linear"
  | .recursive => "recursive"

/-- What a strategy does. -/
def text : Strategy → String
  | .linear => "Linear sweep"
  | .recursive => "Recursive flow analysis"

/-- A text that names no strategy. -/
structure Unknown where
  text : String
deriving DecidableEq, Repr

/-- The wording of a refusal. -/
def Unknown.message (u : Unknown) : String := "invalid variant: " ++ u.text

/-- The strategy of a name, with upper and lower case of ASCII letters told apart or
    not. -/
def parse (s : String) (ignoreCase : Bool) : Except Unknown Strategy :=
  match all.find? fun strategy => strategy.name == if ignoreCase then s.toLower else s with
  | some strategy => .ok strategy
  | none => .error ⟨s⟩

end Strategy

/-- What a strategy finds. -/
inductive Disassembly where
  | stream (instructions : List (Address × Instruction))
  | flow (analysis : Analysis)

/-- The number of instructions. -/
def Disassembly.instructionCount : Disassembly → Nat
  | .stream instructions => instructions.length
  | .flow analysis => analysis.code.size

/-- Applies a strategy. Entry points and options matter only where control flow is
    followed. -/
def Strategy.run (strategy : Strategy) (image : Image) (context : DecodeContext)
    (entries : List Address) (options : AnalysisOptions) (cancelled : Nat → Bool) :
    Except Failure Disassembly :=
  match strategy with
  | .linear => .ok (.stream (linearSweep image context))
  | .recursive =>
    match analyzeImage image context entries options cancelled with
    | .ok analysis => .ok (.flow analysis)
    | .error (.fault fault) => .error (.analysis fault)
    | .error (.overflow cause) => .error (.overflow cause)

end Disasm86
